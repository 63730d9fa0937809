import HashSig.ManyTime.Signature
import Mathlib.Algebra.Ring.Nat

/-! The tree that one pass over the leaves fills, and the way up through it.

Node `x` is completed by the last leaf below it: `i` levels down that is leaf node
`r` with `(x + 1) * 2 ^ i = r + 1` (`mem_completed`). So every node is computed
once (`mem_completionOrder`, `pairwise_completionOrder`), after its children, and
holds in the end what its children's final values make of it (`node_generate`). A
path through such a tree climbs from any leaf to the root (`climb_path`).
-/

set_option autoImplicit false

namespace HashSig.ManyTime

/-! ## The order of completion -/

theorem mod_two_eq_one_iff {r : UInt32} : r % 2 = 1 ↔ r.toNat % 2 = 1 := by
  rw [← UInt32.toNat_inj]
  exact Iff.of_eq (congrArg (· = 1) (UInt32.toNat_mod r 2))

theorem mem_completed {x : UInt32} : ∀ {depth : Nat} {r : UInt32},
    x ∈ completed depth r ↔ ∃ i ≤ depth, (x.toNat + 1) * 2 ^ i = r.toNat + 1
  | 0, r => by
    simp only [completed, List.mem_singleton, Nat.le_zero_eq, exists_eq_left, Nat.pow_zero,
      Nat.mul_one, Nat.add_right_cancel_iff, UInt32.toNat_inj]
  | depth + 1, r => by
    have half : (r / 2).toNat = r.toNat / 2 := UInt32.toNat_div r 2
    have double (i : Nat) : (x.toNat + 1) * 2 ^ (i + 1) = 2 * ((x.toNat + 1) * 2 ^ i) := by
      rw [Nat.pow_succ, ← Nat.mul_assoc, Nat.mul_comm]
    rw [completed]
    split
    · next odd =>
      -- Node `r` is a right child: it completes its parent, whose number plus one is
      -- half of its own plus one.
      have odd := mod_two_eq_one_iff.1 odd
      rw [List.mem_cons, mem_completed, half]
      constructor
      · rintro (rfl | ⟨i, bound, last⟩)
        · exact ⟨0, by omega, by rw [Nat.pow_zero, Nat.mul_one]⟩
        · exact ⟨i + 1, by omega, by rw [double]; omega⟩
      · rintro ⟨i, bound, last⟩
        cases i with
        | zero => exact .inl (UInt32.toNat_inj.1 (by omega))
        | succ i => exact .inr ⟨i, by omega, by rw [double] at last; omega⟩
    · next even =>
      have even := mt mod_two_eq_one_iff.2 even
      rw [List.mem_singleton]
      constructor
      · rintro rfl
        exact ⟨0, by omega, by rw [Nat.pow_zero, Nat.mul_one]⟩
      · rintro ⟨i, bound, last⟩
        cases i with
        | zero => exact UInt32.toNat_inj.1 (by omega)
        | succ i => rw [double] at last; omega

-- An ancestor has a smaller number.
theorem pairwise_completed : ∀ (depth : Nat) {r : UInt32}, 2 ^ depth ≤ r.toNat →
    (completed depth r).Pairwise fun earlier later => later.toNat < earlier.toNat
  | 0, r, _ => List.pairwise_singleton _ r
  | depth + 1, r, bound => by
    rw [completed]
    split
    · have half : (r / 2).toNat = r.toNat / 2 := UInt32.toNat_div r 2
      have positive := Nat.two_pow_pos depth
      rw [Nat.pow_succ] at bound
      refine List.pairwise_cons.2 ⟨?_, pairwise_completed depth (by omega)⟩
      intro x member
      obtain ⟨i, _, last⟩ := mem_completed.1 member
      have grows : x.toNat + 1 ≤ (x.toNat + 1) * 2 ^ i := Nat.le_mul_of_pos_right _ (Nat.two_pow_pos i)
      omega
    · exact List.pairwise_singleton _ r

/-- Computing `later` changes neither node `earlier` nor its children. -/
def Spares (earlier later : UInt32) : Prop :=
  later.toNat ≠ earlier.toNat ∧ later.toNat ≠ 2 * earlier.toNat ∧ later.toNat ≠ 2 * earlier.toNat + 1

theorem spares_of_lt {a b : UInt32} (smaller : b.toNat < a.toNat) : Spares a b :=
  ⟨by omega, by omega, by omega⟩

-- Nodes `a` and `b` stand `i` and `j` levels above the leaves that complete them.
theorem spares_of_last_lt (height : Nat) {i j : Nat} {a b : UInt32} (level : i ≤ height)
    (above : 2 ^ height < (a.toNat + 1) * 2 ^ i)
    (before : (a.toNat + 1) * 2 ^ i < (b.toNat + 1) * 2 ^ j)
    (below : (b.toNat + 1) * 2 ^ j ≤ 2 * 2 ^ height) : Spares a b := by
  have leaves : 2 ^ height ≤ a.toNat * 2 ^ i := by
    have split : 2 ^ height = 2 ^ (height - i) * 2 ^ i := by
      rw [← Nat.pow_add, Nat.sub_add_cancel level]
    rw [split] at above ⊢
    exact Nat.mul_le_mul_right _ (Nat.le_of_lt_succ (Nat.lt_of_mul_lt_mul_right above))
  have positive := Nat.two_pow_pos i
  have double (k : Nat) : a.toNat * 2 ^ (k + 1) = 2 * (a.toNat * 2 ^ k) := by
    rw [Nat.pow_succ, ← Nat.mul_assoc, Nat.mul_comm]
  have climbs {k l : Nat} (more : k < l) : 2 * (a.toNat * 2 ^ k) ≤ a.toNat * 2 ^ l ∧ 2 * 2 ^ k ≤ 2 ^ l := by
    have wider : 2 ^ (k + 1) ≤ 2 ^ l := Nat.pow_le_pow_right (by decide) more
    exact ⟨double k ▸ Nat.mul_le_mul_left _ wider, by rw [Nat.pow_succ] at wider; omega⟩
  simp only [Nat.add_mul, Nat.one_mul] at above before
  -- Below the level of `a` a child of `a` would complete too early, elsewhere too late.
  have spared (n : Nat) (family : n = a.toNat ∨ n = 2 * a.toNat ∨ n = 2 * a.toNat + 1) : b.toNat ≠ n := by
    intro same
    rw [same] at before below
    rcases Nat.lt_trichotomy i j with more | rfl | less
    · have := climbs more
      rcases family with rfl | rfl | rfl <;>
        simp only [Nat.add_mul, Nat.one_mul, Nat.mul_assoc] at before below <;> omega
    · rcases family with rfl | rfl | rfl <;>
        simp only [Nat.add_mul, Nat.one_mul, Nat.mul_assoc] at before below <;> omega
    · have := climbs less
      rcases family with rfl | rfl | rfl <;>
        simp only [Nat.add_mul, Nat.one_mul, Nat.mul_assoc] at before below <;> omega
  exact ⟨spared _ (.inl rfl), spared _ (.inr (.inl rfl)), spared _ (.inr (.inr rfl))⟩

namespace Mode

variable (mode : Mode)

theorem two_pow_height_succ_lt : 2 ^ (mode.height + 1) < 2 ^ 32 := mode.nodes_fit

theorem two_mul_leaves_lt : 2 * 2 ^ mode.height < 2 ^ 32 := by
  have fit := mode.two_pow_height_succ_lt
  rw [Nat.pow_succ] at fit
  omega

theorem height_lt : mode.height < 31 := by
  have := (Nat.pow_lt_pow_iff_right (by decide : 1 < 2)).1 mode.two_pow_height_succ_lt
  omega

theorem toNat_leaves : mode.leaves.toNat = 2 ^ mode.height := by
  have small : mode.height < 2 ^ 32 := Nat.lt_trans mode.height_lt (by decide)
  have fits : 2 ^ mode.height < 2 ^ 32 :=
    Nat.pow_lt_pow_right (by decide) (Nat.lt_trans mode.height_lt (by decide))
  rw [leaves, UInt32.toNat_shiftLeft, UInt32.toNat_ofNat', Nat.mod_eq_of_lt small,
    Nat.mod_eq_of_lt (Nat.lt_trans mode.height_lt (by decide))]
  simpa [Nat.shiftLeft_eq] using Nat.mod_eq_of_lt fits

theorem toNat_add_leaves {q : UInt32} (inRange : q < mode.leaves) :
    (q + mode.leaves).toNat = q.toNat + 2 ^ mode.height := by
  have fit := mode.two_mul_leaves_lt
  rw [UInt32.lt_iff_toNat_lt, mode.toNat_leaves] at inRange
  rw [UInt32.toNat_add, mode.toNat_leaves]
  omega

theorem toNat_leafNode {q : Nat} (inRange : q < mode.leaves.toNat) :
    (UInt32.ofNat q + mode.leaves).toNat = q + 2 ^ mode.height := by
  have same : (UInt32.ofNat q).toNat = q :=
    UInt32.toNat_ofNat_of_lt' (Nat.lt_trans inRange mode.leaves.toNat_lt)
  rw [mode.toNat_add_leaves (UInt32.lt_iff_toNat_lt.2 (same.symm ▸ inRange)), same]

theorem mem_completionOrder_iff {r : UInt32} :
    r ∈ mode.completionOrder ↔ ∃ q < mode.leaves.toNat, ∃ i ≤ mode.height,
      (r.toNat + 1) * 2 ^ i = q + 2 ^ mode.height + 1 := by
  simp only [completionOrder, List.mem_flatMap, List.mem_range, mem_completed]
  constructor
  · rintro ⟨q, inRange, rest⟩
    exact ⟨q, inRange, mode.toNat_leafNode inRange ▸ rest⟩
  · rintro ⟨q, inRange, rest⟩
    exact ⟨q, inRange, (mode.toNat_leafNode inRange).symm ▸ rest⟩

-- Every node is computed.
theorem mem_completionOrder {r : UInt32} :
    r ∈ mode.completionOrder ↔ 0 < r.toNat ∧ r.toNat < 2 * 2 ^ mode.height := by
  rw [mem_completionOrder_iff, mode.toNat_leaves]
  constructor
  · rintro ⟨q, inRange, i, level, last⟩
    have wide := Nat.pow_le_pow_right (by decide : 0 < 2) level
    have grows : r.toNat + 1 ≤ (r.toNat + 1) * 2 ^ i := Nat.le_mul_of_pos_right _ (Nat.two_pow_pos i)
    refine ⟨?_, by omega⟩
    apply Nat.pos_of_ne_zero
    intro none
    rw [none, Nat.zero_add, Nat.one_mul] at last
    omega
  · rintro ⟨positive, inTree⟩
    -- Node `r` is `log2 r` levels below the root, and so as many above the leaves as
    -- the rest of the height.
    have least := Nat.log2_self_le (Nat.ne_of_gt positive)
    have greatest := Nat.lt_log2_self (n := r.toNat)
    have depth : r.toNat.log2 ≤ mode.height := by
      rw [← Nat.pow_succ'] at inTree
      exact Nat.le_of_lt_succ ((Nat.pow_lt_pow_iff_right (by decide)).1 (Nat.lt_of_le_of_lt least inTree))
    have split : 2 ^ mode.height = 2 ^ r.toNat.log2 * 2 ^ (mode.height - r.toNat.log2) := by
      rw [← Nat.pow_add, Nat.add_sub_cancel' depth]
    have lower : 2 ^ mode.height ≤ r.toNat * 2 ^ (mode.height - r.toNat.log2) := by
      rw [split]
      exact Nat.mul_le_mul_right _ least
    have upper : (r.toNat + 1) * 2 ^ (mode.height - r.toNat.log2) ≤ 2 * 2 ^ mode.height := by
      rw [split, ← Nat.mul_assoc, ← Nat.pow_succ']
      exact Nat.mul_le_mul_right _ greatest
    have next : (r.toNat + 1) * 2 ^ (mode.height - r.toNat.log2) =
        r.toNat * 2 ^ (mode.height - r.toNat.log2) + 2 ^ (mode.height - r.toNat.log2) := Nat.succ_mul _ _
    have positive := Nat.two_pow_pos (mode.height - r.toNat.log2)
    exact ⟨(r.toNat + 1) * 2 ^ (mode.height - r.toNat.log2) - (2 ^ mode.height + 1), by omega,
      mode.height - r.toNat.log2, Nat.sub_le _ _, by omega⟩

-- No node is computed before its children, nor twice.
theorem pairwise_completionOrder : mode.completionOrder.Pairwise Spares := by
  rw [completionOrder, List.pairwise_flatMap]
  constructor
  · intro q inRange
    have deep : 2 ^ mode.height ≤ (UInt32.ofNat q + mode.leaves).toNat := by
      rw [mode.toNat_leafNode (List.mem_range.1 inRange)]
      omega
    exact (pairwise_completed mode.height deep).imp spares_of_lt
  · refine List.pairwise_lt_range.imp_of_mem ?_
    intro q p inRange inRange' before a inFirst b inSecond
    have inRange := List.mem_range.1 inRange
    have inRange' := List.mem_range.1 inRange'
    obtain ⟨i, level, last⟩ := mem_completed.1 inFirst
    obtain ⟨j, _, last'⟩ := mem_completed.1 inSecond
    rw [mode.toNat_leafNode inRange] at last
    rw [mode.toNat_leafNode inRange'] at last'
    rw [mode.toNat_leaves] at inRange'
    exact spares_of_last_lt mode.height (j := j) level (by omega) (by omega) (by omega)

end Mode

theorem Leaf.toNat_index_lt {mode : Mode} (leaf : Leaf mode) : leaf.index.toNat < 2 ^ mode.height :=
  mode.toNat_leaves ▸ UInt32.lt_iff_toNat_lt.1 leaf.index_lt

theorem Leaf.toNat_node {mode : Mode} (leaf : Leaf mode) :
    leaf.node.toNat = leaf.index.toNat + 2 ^ mode.height :=
  mode.toNat_add_leaves leaf.index_lt

def AtDepth (depth : Nat) (r : UInt32) : Prop := 2 ^ depth ≤ r.toNat ∧ r.toNat < 2 * 2 ^ depth

theorem AtDepth.eq_one {r : UInt32} (depth : AtDepth 0 r) : r = 1 := by
  obtain ⟨least, greatest⟩ := depth
  exact UInt32.toNat_inj.1 (Nat.le_antisymm (Nat.le_of_lt_succ greatest) least)

theorem AtDepth.half {depth : Nat} {r : UInt32} (below : AtDepth (depth + 1) r) :
    AtDepth depth (r / 2) := by
  obtain ⟨least, greatest⟩ := below
  have half : (r / 2).toNat = r.toNat / 2 := UInt32.toNat_div r 2
  rw [Nat.pow_succ] at least greatest
  exact ⟨by omega, by omega⟩

theorem Leaf.atDepth_node {mode : Mode} (leaf : Leaf mode) : AtDepth mode.height leaf.node := by
  have number := leaf.toNat_node
  have bound := leaf.toNat_index_lt
  exact ⟨by omega, by omega⟩

theorem Signature.atDepth_node {mode : Mode} (s : Signature mode) :
    AtDepth s.path.length s.leaf.node := by
  rw [s.path_length]
  exact s.leaf.atDepth_node

theorem Leaf.node_injective {mode : Mode} {leaf other : Leaf mode} (same : leaf.node = other.node) :
    leaf = other :=
  Leaf.ext ((UInt32.add_left_inj mode.leaves).1 same)

/-! ## Filling -/

namespace Tree

variable {mode : Mode}

@[simp] theorem size_set (tree : Tree mode) (r : UInt32) (value : Octets mode.n) :
    (tree.set r value).nodes.size = tree.nodes.size :=
  Array.size_setIfInBounds

theorem node_set_self {tree : Tree mode} {r : UInt32} (inTree : r.toNat < tree.nodes.size)
    (value : Octets mode.n) : (tree.set r value).node r = value := by
  simp [node, set, Array.getD_eq_getD_getElem?, inTree]

theorem node_set_of_ne (tree : Tree mode) {r x : UInt32} (value : Octets mode.n)
    (other : x.toNat ≠ r.toNat) : (tree.set r value).node x = tree.node x := by
  simp only [node, set, Array.getD_eq_getD_getElem?]
  rw [Array.getElem?_setIfInBounds_ne other.symm]

variable (id : Identifier) (seed : Octets mode.n)

def fill (order : List UInt32) (tree : Tree mode) : Tree mode :=
  order.foldl (fun tree r => tree.set r (tree.valueAt id seed r)) tree

theorem fill_cons (r : UInt32) (order : List UInt32) (tree : Tree mode) :
    fill id seed (r :: order) tree = fill id seed order (tree.set r (tree.valueAt id seed r)) := rfl

theorem node_fill_of_ne {order : List UInt32} {x : UInt32} (tree : Tree mode)
    (others : ∀ r ∈ order, r.toNat ≠ x.toNat) : (fill id seed order tree).node x = tree.node x := by
  induction order generalizing tree with
  | nil => rfl
  | cons r order ih =>
    obtain ⟨other, others⟩ := List.forall_mem_cons.1 others
    rw [fill_cons, ih _ others, node_set_of_ne _ _ other.symm]

-- The children of an inner node.
theorem toNat_children {r : UInt32} (inner : r < mode.leaves) :
    (2 * r).toNat = 2 * r.toNat ∧ (2 * r + 1).toNat = 2 * r.toNat + 1 := by
  have fit := mode.two_mul_leaves_lt
  rw [UInt32.lt_iff_toNat_lt, mode.toNat_leaves] at inner
  have left : (2 * r).toNat = 2 * r.toNat := by
    rw [UInt32.toNat_mul]
    exact Nat.mod_eq_of_lt (by simp only [UInt32.reduceToNat]; omega)
  refine ⟨left, ?_⟩
  rw [UInt32.toNat_add, left]
  exact Nat.mod_eq_of_lt (by simp only [UInt32.reduceToNat]; omega)

theorem valueAt_congr {first second : Tree mode} {r : UInt32}
    (same : ∀ x : UInt32, r < mode.leaves → x.toNat = 2 * r.toNat ∨ x.toNat = 2 * r.toNat + 1 →
      first.node x = second.node x) : first.valueAt id seed r = second.valueAt id seed r := by
  rw [valueAt, valueAt]
  split
  · rfl
  · next inner =>
    have inner := UInt32.not_le.1 inner
    obtain ⟨left, right⟩ := toNat_children inner
    rw [same _ inner (.inl left), same _ inner (.inr right)]

-- What is computed from node `r` on leaves the children of `r` as they are.
theorem node_fill_child {order : List UInt32} {r child : UInt32} (spared : ∀ later ∈ order, Spares r later)
    (positive : 0 < r.toNat) (family : child.toNat = 2 * r.toNat ∨ child.toNat = 2 * r.toNat + 1)
    (tree : Tree mode) (value : Octets mode.n) :
    (fill id seed order (tree.set r value)).node child = tree.node child := by
  rw [node_fill_of_ne id seed, node_set_of_ne _ _ (by omega)]
  intro later inOrder same
  rcases family with left | right
  · exact (spared later inOrder).2.1 (same.trans left)
  · exact (spared later inOrder).2.2 (same.trans right)

/-- In an order that computes no node before its children, or twice, every node
ends as what its children's final values make of it. -/
theorem node_fill {order : List UInt32} (spared : order.Pairwise Spares) {tree : Tree mode}
    (inTree : ∀ r ∈ order, 0 < r.toNat ∧ r.toNat < tree.nodes.size) {x : UInt32} (member : x ∈ order) :
    (fill id seed order tree).node x = (fill id seed order tree).valueAt id seed x := by
  induction order generalizing tree with
  | nil => cases member
  | cons r order ih =>
    obtain ⟨first, rest⟩ := List.pairwise_cons.1 spared
    obtain ⟨⟨positive, bound⟩, later⟩ := List.forall_mem_cons.1 inTree
    rcases List.mem_cons.1 member with rfl | member
    · rw [fill_cons, node_fill_of_ne id seed _ (fun y inOrder => (first y inOrder).1),
        node_set_self bound]
      exact valueAt_congr id seed fun child _ family =>
        (node_fill_child id seed first positive family tree _).symm
    · exact ih rest (by simpa using later) member

theorem node_generate {r : UInt32} (positive : 0 < r.toNat) (inTree : r.toNat < 2 * 2 ^ mode.height) :
    (generate mode id seed).node r = (generate mode id seed).valueAt id seed r := by
  refine node_fill id seed mode.pairwise_completionOrder ?_ (mode.mem_completionOrder.2 ⟨positive, inTree⟩)
  intro x member
  rw [blank, Array.size_replicate, mode.toNat_leaves]
  exact mode.mem_completionOrder.1 member

theorem node_generate_leaf (leaf : Leaf mode) :
    (generate mode id seed).node leaf.node =
      mode.leafHash id leaf.node (mode.oneTimeValue id seed leaf.index) := by
  have number := leaf.toNat_node
  have bound := leaf.toNat_index_lt
  have positive := Nat.two_pow_pos mode.height
  have deep : mode.leaves ≤ leaf.node := by
    rw [UInt32.le_iff_toNat_le, mode.toNat_leaves]
    omega
  have index : leaf.node - mode.leaves = leaf.index := UInt32.add_sub_cancel _ _
  rw [node_generate id seed (by omega) (by omega), valueAt, if_pos deep, index]

theorem node_generate_inner {r : UInt32} (positive : 0 < r.toNat) (inner : r < mode.leaves) :
    (generate mode id seed).node r = mode.interiorHash id r ((generate mode id seed).node (2 * r))
      ((generate mode id seed).node (2 * r + 1)) := by
  have small := inner
  rw [UInt32.lt_iff_toNat_lt, mode.toNat_leaves] at small
  rw [node_generate id seed positive (by omega), valueAt, if_neg (UInt32.not_le.2 inner)]

/-! ## The way up -/

/-- Every inner node is the hash of its children. -/
def Joined (tree : Tree mode) : Prop :=
  ∀ r : UInt32, 0 < r.toNat → r < mode.leaves →
    tree.node r = mode.interiorHash id r (tree.node (2 * r)) (tree.node (2 * r + 1))

theorem joined_generate : (generate mode id seed).Joined id :=
  fun _ positive inner => node_generate_inner id seed positive inner

end Tree

theorem toNat_shiftRight (r : UInt32) {k : Nat} (few : k < 32) :
    (r >>> UInt32.ofNat k).toNat = r.toNat / 2 ^ k := by
  have small : k < 2 ^ 32 := Nat.lt_trans few (by decide)
  rw [UInt32.toNat_shiftRight, UInt32.toNat_ofNat', Nat.mod_eq_of_lt small, Nat.mod_eq_of_lt few,
    Nat.shiftRight_eq_div_pow]

theorem shiftRight_zero (r : UInt32) : r >>> UInt32.ofNat 0 = r := by
  apply UInt32.toNat_inj.1
  rw [toNat_shiftRight r (by decide), Nat.pow_zero, Nat.div_one]

theorem shiftRight_succ (r : UInt32) {k : Nat} (few : k + 1 < 32) :
    r >>> UInt32.ofNat (k + 1) = (r / 2) >>> UInt32.ofNat k := by
  have half : (r / 2).toNat = r.toNat / 2 := UInt32.toNat_div r 2
  apply UInt32.toNat_inj.1
  rw [toNat_shiftRight r few, toNat_shiftRight _ (by omega), half, Nat.div_div_eq_div_mul, Nat.pow_succ']

-- The two children of a node are siblings.
theorem toNat_sibling (r : UInt32) : (r ^^^ 1).toNat = 2 * (r.toNat / 2) + (1 - r.toNat % 2) := by
  have parent : (r.toNat ^^^ 1) / 2 = r.toNat / 2 := by rw [Nat.xor_div_two, Nat.xor_zero]
  have side : (r.toNat ^^^ 1) % 2 = 1 ↔ ¬ (r.toNat % 2 = 1 ↔ 1 % 2 = 1) := Nat.xor_mod_two_eq_one
  rw [UInt32.toNat_xor]
  change r.toNat ^^^ 1 = _
  omega

/-- The siblings of node `r` and of as many of its ancestors as make the given number of
levels, from node `r` up. -/
def siblingsUp (levels : Nat) (r : UInt32) : List UInt32 :=
  (List.range levels).map fun level => (r >>> UInt32.ofNat level) ^^^ 1

-- Behind a node's sibling stand those of its parent and of the parent's ancestors.
theorem siblingsUp_succ {levels : Nat} (few : levels < 32) (r : UInt32) :
    siblingsUp (levels + 1) r = (r ^^^ 1) :: siblingsUp levels (r / 2) := by
  rw [siblingsUp, List.range_succ_eq_map, List.map_cons, List.map_map, shiftRight_zero]
  congr 1
  refine List.map_congr_left fun level member => ?_
  have bound := List.mem_range.1 member
  rw [Function.comp_apply, Nat.succ_eq_add_one, shiftRight_succ r (by omega)]

namespace Tree

variable {mode : Mode} {id : Identifier} {tree : Tree mode}

-- A node and its sibling make their parent.
theorem Joined.parent (joined : tree.Joined id) {r : UInt32} (below : 1 < r.toNat)
    (inTree : r.toNat < 2 * 2 ^ mode.height) :
    (if r % 2 = 1 then mode.interiorHash id (r / 2) (tree.node (r ^^^ 1)) (tree.node r)
      else mode.interiorHash id (r / 2) (tree.node r) (tree.node (r ^^^ 1))) = tree.node (r / 2) := by
  have half : (r / 2).toNat = r.toNat / 2 := UInt32.toNat_div r 2
  have inner : r / 2 < mode.leaves := by
    rw [UInt32.lt_iff_toNat_lt, half, mode.toNat_leaves]
    omega
  have sibling := toNat_sibling r
  obtain ⟨left, right⟩ := toNat_children inner
  rw [joined (r / 2) (by omega) inner]
  split
  · next odd =>
    have odd := mod_two_eq_one_iff.1 odd
    have first : r ^^^ 1 = 2 * (r / 2) := UInt32.toNat_inj.1 (by omega)
    have second : r = 2 * (r / 2) + 1 := UInt32.toNat_inj.1 (by omega)
    rw [first, ← second]
  · next even =>
    have even := mt mod_two_eq_one_iff.2 even
    have first : r = 2 * (r / 2) := UInt32.toNat_inj.1 (by omega)
    have second : r ^^^ 1 = 2 * (r / 2) + 1 := UInt32.toNat_inj.1 (by omega)
    rw [second, ← first]

-- A climb along siblings stays in the tree.
theorem Joined.climb (joined : tree.Joined id) {levels : Nat} (few : levels < 32) {r : UInt32}
    (deep : 2 ^ levels ≤ r.toNat) (inTree : r.toNat < 2 * 2 ^ mode.height) :
    mode.climb id r (tree.node r) ((siblingsUp levels r).map tree.node) =
      tree.node (r >>> UInt32.ofNat levels) := by
  induction levels generalizing r with
  | zero => rw [shiftRight_zero]; rfl
  | succ levels ih =>
    have half : (r / 2).toNat = r.toNat / 2 := UInt32.toNat_div r 2
    have positive := Nat.two_pow_pos levels
    rw [Nat.pow_succ] at deep
    rw [siblingsUp_succ (by omega), List.map_cons, Mode.climb, joined.parent (by omega) inTree,
      ih (by omega) (by omega) (by omega), shiftRight_succ r few]

theorem path_eq (tree : Tree mode) (leaf : Leaf mode) :
    tree.path leaf = (siblingsUp mode.height leaf.node).map tree.node := by
  rw [siblingsUp, List.map_map]
  rfl

theorem Joined.climb_path (joined : tree.Joined id) (leaf : Leaf mode) :
    mode.climb id leaf.node (tree.node leaf.node) (tree.path leaf) = tree.root := by
  have number := leaf.toNat_node
  have bound := leaf.toNat_index_lt
  have few : mode.height < 32 := Nat.lt_trans mode.height_lt (by decide)
  have top : leaf.node >>> UInt32.ofNat mode.height = 1 := by
    apply UInt32.toNat_inj.1
    rw [toNat_shiftRight _ few, number, Nat.add_div_right _ (Nat.two_pow_pos _), Nat.div_eq_of_lt bound]
    rfl
  rw [path_eq, joined.climb few (by omega) (by omega), top, root]

end Tree

theorem climb_generate {mode : Mode} (id : Identifier) (seed : Octets mode.n) (leaf : Leaf mode) :
    mode.climb id leaf.node (mode.leafHash id leaf.node (mode.oneTimeValue id seed leaf.index))
        ((Tree.generate mode id seed).path leaf) = (Tree.generate mode id seed).root := by
  rw [← Tree.node_generate_leaf]
  exact (Tree.joined_generate id seed).climb_path leaf

end HashSig.ManyTime
