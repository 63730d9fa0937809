import HashSig.Proofs.Safety
import HashSig.Proofs.TreeBuilding

/-! Trees with guarded operations.

A slot of a tree is written and read here only if it is there and is not slot zero, and
node numbers are computed in words. The pass over the leaves meets no fault and fills the
tree of the key (`Tree.generateGuarded_eq`). From any leaf the path is read at the
siblings of the leaf and of its ancestors below the root (`toNat_siblingsUp`), which are
neither slot zero nor the root (`mem_siblingsUp`), so reading it meets none either
(`Tree.pathGuarded_eq`).
-/

set_option autoImplicit false

namespace HashSig.ManyTime

open Guarded

variable {mode : Mode}

/-! ## The numbers on a path -/

def belowRoot (r : Nat) : List Nat :=
  if 1 < r then r :: belowRoot (r / 2) else []

def siblingOf (r : Nat) : Nat := if r % 2 = 1 then r - 1 else r + 1

theorem toNat_xor_one (r : UInt32) (positive : 0 < r.toNat) : (r ^^^ 1).toNat = siblingOf r.toNat := by
  rw [toNat_sibling, siblingOf]
  split <;> omega

theorem AtDepth.sibling {depth : Nat} {r : UInt32} (below : AtDepth (depth + 1) r) :
    AtDepth (depth + 1) (r ^^^ 1) := by
  obtain ⟨least, greatest⟩ := below
  have number := toNat_sibling r
  rw [Nat.pow_succ] at least greatest
  exact ⟨by rw [Nat.pow_succ]; omega, by rw [Nat.pow_succ]; omega⟩

theorem AtDepth.few {depth : Nat} {r : UInt32} (below : AtDepth depth r) : depth < 32 :=
  (Nat.pow_lt_pow_iff_right (by decide)).1 (Nat.lt_of_le_of_lt below.1 r.toNat_lt)

theorem toNat_siblingsUp {levels : Nat} {r : UInt32} (below : AtDepth levels r) :
    (siblingsUp levels r).map UInt32.toNat = (belowRoot r.toNat).map siblingOf := by
  induction levels generalizing r with
  | zero =>
    rw [below.eq_one, belowRoot]
    rfl
  | succ levels ih =>
    have few := below.few
    have half : (r / 2).toNat = r.toNat / 2 := UInt32.toNat_div r 2
    have deep : 1 < r.toNat := Nat.lt_of_lt_of_le (Nat.one_lt_two_pow (Nat.succ_ne_zero levels)) below.1
    have up : belowRoot r.toNat = r.toNat :: belowRoot (r.toNat / 2) := by rw [belowRoot, if_pos deep]
    rw [siblingsUp_succ (by omega), List.map_cons, ih below.half, half, up, List.map_cons,
      toNat_xor_one r (by omega)]

-- None of them is slot zero or the root, and all of them are nodes of the tree.
theorem mem_siblingsUp {levels : Nat} {r x : UInt32} (below : AtDepth levels r)
    (member : x ∈ siblingsUp levels r) : 1 < x.toNat ∧ x.toNat < 2 * 2 ^ levels := by
  induction levels generalizing r with
  | zero => cases member
  | succ levels ih =>
    have few := below.few
    rw [siblingsUp_succ (by omega), List.mem_cons] at member
    rcases member with rfl | member
    · obtain ⟨least, greatest⟩ := below.sibling
      exact ⟨Nat.lt_of_lt_of_le (Nat.one_lt_two_pow (Nat.succ_ne_zero levels)) least, greatest⟩
    · obtain ⟨above, inside⟩ := ih below.half member
      rw [Nat.pow_succ]
      exact ⟨above, by omega⟩

example : (belowRoot 6).map siblingOf = [7, 2] := by cbv

/-! ## Slots -/

namespace Tree

/-- The slot is one of a node. -/
def Has (tree : Tree mode) (r : UInt32) : Prop := 0 < r.toNat ∧ r.toNat < tree.nodes.size

instance (tree : Tree mode) (r : UInt32) : Decidable (tree.Has r) :=
  inferInstanceAs (Decidable (_ ∧ _))

def nodeGuarded (tree : Tree mode) (r : UInt32) : Guarded (Octets mode.n) := do
  assert (tree.Has r)
  return tree.node r

def setGuarded (tree : Tree mode) (r : UInt32) (value : Octets mode.n) : Guarded (Tree mode) := do
  assert (tree.Has r)
  return tree.set r value

def rootGuarded (tree : Tree mode) : Guarded (Octets mode.n) := tree.nodeGuarded 1

/-- Moves the nodes out. What is left behind is a tree without any. -/
def take (tree : Tree mode) : Tree mode × Tree mode := (tree, ⟨#[]⟩)

variable {tree : Tree mode} {r : UInt32}

theorem nodeGuarded_eq (present : tree.Has r) : tree.nodeGuarded r = .ok (tree.node r) := by
  rw [nodeGuarded, assert_eq present]
  rfl

theorem setGuarded_eq (present : tree.Has r) (value : Octets mode.n) :
    tree.setGuarded r value = .ok (tree.set r value) := by
  rw [setGuarded, assert_eq present]
  rfl

example (tree : Tree mode) : tree.take.2.rootGuarded = .error .assertion := rfl

/-! ## Building -/

/-- As long as node `r` is a right child, joins it with the node before it and goes on
from their parent. -/
def foldUpGuarded (id : Identifier) (tree : Tree mode) (r : UInt32) : Guarded (Tree mode) :=
  if 1 < r ∧ r % 2 = 1 then do
    let left ← tree.nodeGuarded (UInt32.ofNat (← sub r.toNat 1))
    let right ← tree.nodeGuarded r
    let tree ← tree.setGuarded (r / 2) (mode.interiorHash id (r / 2) left right)
    foldUpGuarded id tree (r / 2)
  else
    return tree
termination_by r.toNat
decreasing_by
  next more =>
    have more := UInt32.lt_iff_toNat_lt.1 more.1
    rw [UInt32.toNat_div]
    exact Nat.div_lt_self (Nat.lt_trans Nat.one_pos more) (by decide)

def leafValueGuarded (mode : Mode) (id : Identifier) (seed : Octets mode.n) (q : Nat) :
    Guarded (Octets mode.n) := do
  let r ← add 32 q (← mode.leavesGuarded)
  return mode.leafHash id (UInt32.ofNat r) (mode.oneTimeValue id seed (UInt32.ofNat q))

def addLeafGuarded (id : Identifier) (seed : Octets mode.n) (tree : Tree mode) (q : Nat) :
    Guarded (Tree mode) := do
  let r ← add 32 q (← mode.leavesGuarded)
  let tree ← tree.setGuarded (UInt32.ofNat r) (← leafValueGuarded mode id seed q)
  tree.foldUpGuarded id (UInt32.ofNat r)

def generateGuarded (mode : Mode) (id : Identifier) (seed : Octets mode.n) : Guarded (Tree mode) := do
  let leaves ← mode.leavesGuarded
  let slots ← mul 32 2 leaves
  (List.range leaves).foldlM (addLeafGuarded id seed) ⟨Array.replicate slots (Octets.zero mode.n)⟩

end Tree

theorem Leaf.add_leaves_eq (leaf : Leaf mode) :
    add 32 leaf.index.toNat mode.leaves.toNat = .ok leaf.node.toNat := by
  have number : leaf.node.toNat = leaf.index.toNat + mode.leaves.toNat := by
    rw [leaf.toNat_node, mode.toNat_leaves]
  rw [number]
  exact add_eq (number ▸ leaf.node.toNat_lt)

theorem Tree.leafValueGuarded_eq (id : Identifier) (seed : Octets mode.n) (leaf : Leaf mode) :
    leafValueGuarded mode id seed leaf.index.toNat =
      .ok (mode.leafHash id leaf.node (mode.oneTimeValue id seed leaf.index)) := by
  rw [leafValueGuarded, mode.leavesGuarded_eq, ok_bind, leaf.add_leaves_eq, ok_bind, UInt32.ofNat_toNat,
    UInt32.ofNat_toNat]
  rfl

namespace Builder

variable (id : Identifier) (seed : Octets mode.n)

theorem foldUpGuarded_eq (b : Builder mode) {r : UInt32} (inTree : r.toNat < b.tree.nodes.size) :
    b.tree.foldUpGuarded id r = .ok (b.foldUp id r).tree ∧
      (b.foldUp id r).tree.nodes.size = b.tree.nodes.size := by
  fun_induction foldUp id b r with
  | case1 b r more ih =>
    -- A right child other than the root has a number of at least three.
    have above := UInt32.lt_iff_toNat_lt.1 more.1
    have odd := mod_two_eq_one_iff.1 more.2
    have half : (r / 2).toNat = r.toNat / 2 := UInt32.toNat_div r 2
    have before : (r - 1).toNat = r.toNat - 1 := UInt32.toNat_sub_of_le _ _ (UInt32.le_of_lt more.1)
    have number : UInt32.ofNat (r.toNat - 1) = r - 1 := by rw [← before, UInt32.ofNat_toNat]
    simp only [UInt32.reduceToNat] at above
    obtain ⟨rest, size⟩ := ih (by rw [write, Tree.size_set]; omega)
    rw [Tree.foldUpGuarded, if_pos more, sub_eq (by omega), ok_bind, number,
      Tree.nodeGuarded_eq ⟨by omega, by omega⟩, ok_bind, Tree.nodeGuarded_eq ⟨by omega, inTree⟩, ok_bind,
      Tree.setGuarded_eq ⟨by omega, by omega⟩, ok_bind]
    exact ⟨rest, size.trans (Tree.size_set _ _ _)⟩
  | case2 b r done =>
    rw [Tree.foldUpGuarded, if_neg done]
    exact ⟨rfl, rfl⟩

theorem addLeafGuarded_eq (b : Builder mode) (size : b.tree.nodes.size = 2 * mode.leaves.toNat)
    (leaf : Leaf mode) :
    b.tree.addLeafGuarded id seed leaf.index.toNat = .ok (b.addLeaf id seed leaf.index).tree ∧
      (b.addLeaf id seed leaf.index).tree.nodes.size = 2 * mode.leaves.toNat := by
  have number := leaf.toNat_node
  have bound := leaf.toNat_index_lt
  rw [← mode.toNat_leaves] at number bound
  obtain ⟨rest, same⟩ := foldUpGuarded_eq id
    (b.write leaf.node (mode.leafHash id leaf.node (mode.oneTimeValue id seed leaf.index)))
    (r := leaf.node) (by rw [write, Tree.size_set]; omega)
  rw [Tree.addLeafGuarded, mode.leavesGuarded_eq, ok_bind, leaf.add_leaves_eq, ok_bind, Tree.leafValueGuarded_eq,
    ok_bind, UInt32.ofNat_toNat, Tree.setGuarded_eq ⟨by omega, by omega⟩, ok_bind]
  exact ⟨rest, same.trans ((Tree.size_set _ _ _).trans size)⟩

end Builder

namespace Tree

variable (id : Identifier) (seed : Octets mode.n)

theorem generateGuarded_eq : generateGuarded mode id seed = .ok (generate mode id seed) := by
  have fits := mode.two_mul_leaves_lt
  rw [← mode.toNat_leaves] at fits
  rw [generateGuarded, mode.leavesGuarded_eq, ok_bind, mul_eq fits, ok_bind, ← Builder.tree_pass,
    Builder.pass]
  have blank : (Builder.start mode).tree.nodes.size = 2 * mode.leaves.toNat := Array.size_replicate
  refine foldlM_eq Builder.tree (fun b => b.tree.nodes.size = 2 * mode.leaves.toNat) blank
    fun q member b size => ?_
  obtain ⟨leaf, rfl⟩ := Builder.mem_range_leaves member
  rw [UInt32.ofNat_toNat]
  exact b.addLeafGuarded_eq id seed size leaf

theorem size_generate_leaves : (generate mode id seed).nodes.size = 2 * mode.leaves.toNat := by
  rw [size_generate, Nat.pow_succ', mode.toNat_leaves]

/-! ## Reading -/

theorem rootGuarded_eq {tree : Tree mode} (size : tree.nodes.size = 2 * mode.leaves.toNat) :
    tree.rootGuarded = .ok tree.root := by
  have positive := Nat.two_pow_pos mode.height
  rw [← mode.toNat_leaves] at positive
  exact nodeGuarded_eq ⟨Nat.one_pos, by rw [size]; change 1 < _; omega⟩

def pathGuarded (tree : Tree mode) (q : UInt32) : Guarded (List (Octets mode.n)) := do
  let leaves ← mode.leavesGuarded
  assert (q.toNat < leaves)
  let r ← add 32 q.toNat leaves
  (List.range mode.height).mapM fun level => do
    let ancestor ← shiftRight 32 r level
    tree.nodeGuarded (UInt32.ofNat ancestor ^^^ 1)

theorem pathGuarded_eq {tree : Tree mode} (size : tree.nodes.size = 2 * mode.leaves.toNat)
    (leaf : Leaf mode) : tree.pathGuarded leaf.index = .ok (tree.path leaf) := by
  have few : mode.height < 32 := leaf.atDepth_node.few
  rw [pathGuarded, mode.leavesGuarded_eq, ok_bind, assert_eq (UInt32.lt_iff_toNat_lt.1 leaf.index_lt), ok_bind,
    leaf.add_leaves_eq, ok_bind]
  refine mapM_eq fun level member => ?_
  have below := List.mem_range.1 member
  have ancestor : UInt32.ofNat (leaf.node.toNat / 2 ^ level) = leaf.node >>> UInt32.ofNat level := by
    rw [← toNat_shiftRight leaf.node (Nat.lt_trans below few), UInt32.ofNat_toNat]
  obtain ⟨above, inside⟩ := mem_siblingsUp leaf.atDepth_node (List.mem_map_of_mem member)
  rw [← mode.toNat_leaves] at inside
  rw [shiftRight_eq (Nat.lt_trans below few), ok_bind, ancestor]
  exact nodeGuarded_eq ⟨Nat.lt_of_succ_lt above, size ▸ inside⟩

end Tree

end HashSig.ManyTime
