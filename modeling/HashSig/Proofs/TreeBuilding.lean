import HashSig.Proofs.Conformance
import HashSig.Proofs.Tree

/-! The pass that fills a tree, one write after the other.

A builder writes a leaf and then, as long as the node it has just written is a right
child, the parent of that node. So it computes the nodes in the order in which they are
completed (`Builder.foldUp_compute`, `Builder.pass_eq`), each of them once and from
children that have their final values (`Builder.orderly_pass`). The values in the end are
those that the standard gives to the nodes, and these equations leave no choice from the
root down (`Standard.NodeValues.eq_nodeValue`).
-/

set_option autoImplicit false

namespace HashSig

namespace Standard

section

variable (H : Bytes → Bytes) (I : Bytes) (h : Nat) (key : Nat → Bytes)

/-- The value of node `r` in a tree of height `h`, from the top down. The public value at
leaf `q` is `key q`. -/
def nodeValue (r : Nat) : Bytes :=
  if 2 ^ h ≤ r then
    H (I ++ u32str r ++ u16str dLeaf ++ key (r - 2 ^ h))
  else if 0 < r then
    H (I ++ u32str r ++ u16str dIntr ++ nodeValue (2 * r) ++ nodeValue (2 * r + 1))
  else
    []
termination_by 2 ^ h - r

/-- The values `T` of the nodes are what the standard makes of the public values and of
each other. -/
structure NodeValues (T : Nat → Bytes) : Prop where
  leaf : ∀ r, 2 ^ h ≤ r → r < 2 ^ (h + 1) → T r = H (I ++ u32str r ++ u16str dLeaf ++ key (r - 2 ^ h))
  inner : ∀ r, 0 < r → r < 2 ^ h → T r = H (I ++ u32str r ++ u16str dIntr ++ T (2 * r) ++ T (2 * r + 1))

end

variable {H : Bytes → Bytes} {I : Bytes} {h : Nat} {key : Nat → Bytes} {T : Nat → Bytes}

theorem NodeValues.eq_nodeValue (values : NodeValues H I h key T) {r : Nat} (positive : 0 < r)
    (inTree : r < 2 ^ (h + 1)) : T r = nodeValue H I h key r := by
  have double : 2 ^ (h + 1) = 2 * 2 ^ h := Nat.pow_succ'
  fun_induction nodeValue H I h key r with
  | case1 r deep => exact values.leaf r deep inTree
  | case2 r inner _ left right =>
    rw [values.inner r positive (by omega), left (by omega) (by omega), right (by omega) (by omega)]
  | case3 r _ none => exact absurd positive none

end Standard

namespace ManyTime

variable {mode : Mode}

/-! ## The pass -/

structure Write (mode : Mode) where
  slot : UInt32
  seen : Tree mode

structure Builder (mode : Mode) where
  tree : Tree mode
  writes : List (Write mode)

namespace Builder

def start (mode : Mode) : Builder mode := ⟨Tree.blank mode, []⟩

def write (b : Builder mode) (r : UInt32) (value : Octets mode.n) : Builder mode :=
  ⟨b.tree.set r value, b.writes ++ [⟨r, b.tree⟩]⟩

/-- As long as node `r` is a right child, joins it with the node before it and goes on
from their parent. -/
def foldUp (id : Identifier) (b : Builder mode) (r : UInt32) : Builder mode :=
  if 1 < r ∧ r % 2 = 1 then
    foldUp id (b.write (r / 2) (mode.interiorHash id (r / 2) (b.tree.node (r - 1)) (b.tree.node r)))
      (r / 2)
  else
    b
termination_by r.toNat
decreasing_by
  next more =>
    have more := UInt32.lt_iff_toNat_lt.1 more.1
    rw [UInt32.toNat_div]
    exact Nat.div_lt_self (Nat.lt_trans Nat.one_pos more) (by decide)

def addLeaf (id : Identifier) (seed : Octets mode.n) (b : Builder mode) (q : UInt32) : Builder mode :=
  let r := q + mode.leaves
  (b.write r (mode.leafHash id r (mode.oneTimeValue id seed q))).foldUp id r

def pass (mode : Mode) (id : Identifier) (seed : Octets mode.n) : Builder mode :=
  (List.range mode.leaves.toNat).foldl (fun b q => b.addLeaf id seed (UInt32.ofNat q)) (start mode)

/-- Every slot from one on is written once and slot zero is not. When an inner node is
computed, its children have the values that they have in the end. -/
structure Orderly (b : Builder mode) : Prop where
  once : ∀ r, (b.writes.map Write.slot).count r =
    if 0 < r.toNat ∧ r.toNat < 2 ^ (mode.height + 1) then 1 else 0
  ready : ∀ w ∈ b.writes, w.slot < mode.leaves →
    w.seen.node (2 * w.slot) = b.tree.node (2 * w.slot) ∧
      w.seen.node (2 * w.slot + 1) = b.tree.node (2 * w.slot + 1)

/-! ## The order of the writes -/

variable (id : Identifier) (seed : Octets mode.n)

def compute (b : Builder mode) (r : UInt32) : Builder mode := b.write r (b.tree.valueAt id seed r)

-- The node before a right child is its sibling, so the two make the parent's value.
theorem write_parent {r : UInt32} (b : Builder mode) (odd : r % 2 = 1)
    (inTree : r.toNat < 2 * 2 ^ mode.height) :
    b.write (r / 2) (mode.interiorHash id (r / 2) (b.tree.node (r - 1)) (b.tree.node r)) =
      b.compute id seed (r / 2) := by
  have half : (r / 2).toNat = r.toNat / 2 := UInt32.toNat_div r 2
  have odd := mod_two_eq_one_iff.1 odd
  have inner : r / 2 < mode.leaves := by
    rw [UInt32.lt_iff_toNat_lt, half, mode.toNat_leaves]
    omega
  obtain ⟨left, right⟩ := Tree.toNat_children inner
  have before : (r - 1).toNat = r.toNat - 1 :=
    UInt32.toNat_sub_of_le _ _ (UInt32.le_iff_toNat_le.2 (by simp only [UInt32.reduceToNat]; omega))
  have first : r - 1 = 2 * (r / 2) := UInt32.toNat_inj.1 (by omega)
  have second : 2 * (r / 2) + 1 = r := UInt32.toNat_inj.1 (by omega)
  rw [compute, Tree.valueAt, if_neg (UInt32.not_le.2 inner), second, ← first]

theorem foldUp_compute {depth : Nat} {r : UInt32} (level : depth ≤ mode.height) (below : AtDepth depth r)
    (b : Builder mode) :
    (b.compute id seed r).foldUp id r = (completed depth r).foldl (compute id seed) b := by
  -- The level falls with each join, so it is zero exactly where the loop stops at the root.
  induction depth generalizing r b with
  | zero =>
    rw [below.eq_one, foldUp, if_neg (by decide)]
    rfl
  | succ depth ih =>
    have wide := Nat.pow_le_pow_right (by decide : 0 < 2) level
    have deep : 1 < r.toNat := Nat.lt_of_lt_of_le (Nat.one_lt_two_pow (Nat.succ_ne_zero depth)) below.1
    have inTree : r.toNat < 2 * 2 ^ mode.height := Nat.lt_of_lt_of_le below.2 (Nat.mul_le_mul_left 2 wide)
    rw [foldUp, completed]
    by_cases odd : r % 2 = 1
    · rw [if_pos ⟨UInt32.lt_iff_toNat_lt.2 deep, odd⟩, if_pos odd, write_parent id seed _ odd inTree,
        ih (Nat.le_of_succ_le level) below.half, List.foldl_cons]
    · rw [if_neg fun both => odd both.2, if_neg odd]
      rfl

theorem addLeaf_eq (b : Builder mode) (leaf : Leaf mode) :
    b.addLeaf id seed leaf.index = (completed mode.height leaf.node).foldl (compute id seed) b := by
  have deep : mode.leaves ≤ leaf.node := by
    rw [UInt32.le_iff_toNat_le, mode.toNat_leaves, leaf.toNat_node]
    exact Nat.le_add_left _ _
  have index : leaf.node - mode.leaves = leaf.index := UInt32.add_sub_cancel _ _
  rw [← foldUp_compute id seed (Nat.le_refl _) leaf.atDepth_node, compute, Tree.valueAt, if_pos deep, index]
  rfl

theorem mem_range_leaves {q : Nat} (member : q ∈ List.range mode.leaves.toNat) :
    ∃ leaf : Leaf mode, leaf.index.toNat = q :=
  Leaf.exists_toNat_index (mode.toNat_leaves ▸ List.mem_range.1 member)

theorem pass_eq : pass mode id seed = mode.completionOrder.foldl (compute id seed) (start mode) := by
  rw [pass, Mode.completionOrder, List.foldl_flatMap]
  refine List.foldl_ext _ _ _ fun b q member => ?_
  obtain ⟨leaf, rfl⟩ := mem_range_leaves member
  rw [UInt32.ofNat_toNat]
  exact addLeaf_eq id seed b leaf

/-! ## What a run of computations leaves behind -/

variable {id seed} {b : Builder mode} {order : List UInt32}

theorem tree_computed : (order.foldl (compute id seed) b).tree = Tree.fill id seed order b.tree := by
  induction order generalizing b with
  | nil => rfl
  | cons r order ih => exact ih

theorem slots_computed :
    (order.foldl (compute id seed) b).writes.map Write.slot = b.writes.map Write.slot ++ order := by
  induction order generalizing b with
  | nil => simp
  | cons r order ih => simp [ih, compute, write]

-- A value is computed from the tree that the slots before it have filled.
theorem mem_writes_computed {w : Write mode} (member : w ∈ (order.foldl (compute id seed) b).writes) :
    w ∈ b.writes ∨ ∃ earlier later, order = earlier ++ w.slot :: later ∧
      w.seen = Tree.fill id seed earlier b.tree := by
  induction order generalizing b with
  | nil => exact .inl member
  | cons r order ih =>
    rcases ih member with old | ⟨earlier, later, rfl, seen⟩
    · rcases List.mem_append.1 old with old | new
      · exact .inl old
      · cases List.mem_singleton.1 new
        exact .inr ⟨[], order, rfl, rfl⟩
    · exact .inr ⟨r :: earlier, later, rfl, seen⟩

end Builder

/-! ## The tree -/

variable (id : Identifier) (seed : Octets mode.n)

theorem Builder.tree_pass : (pass mode id seed).tree = Tree.generate mode id seed := by
  rw [pass_eq, tree_computed]
  rfl

theorem Mode.nodup_completionOrder (mode : Mode) : mode.completionOrder.Nodup :=
  mode.pairwise_completionOrder.imp fun spares same => spares.1 (congrArg UInt32.toNat same).symm

theorem Builder.slots_pass : (pass mode id seed).writes.map Write.slot = mode.completionOrder := by
  rw [pass_eq, slots_computed, start, List.map_nil, List.nil_append]

theorem Builder.orderly_pass : (pass mode id seed).Orderly where
  once r := by
    rw [slots_pass, Nat.pow_succ', mode.nodup_completionOrder.count]
    simp only [mode.mem_completionOrder]
  ready w member inner := by
    rw [pass_eq] at member
    rcases mem_writes_computed member with none | ⟨earlier, later, order, seen⟩
    · cases none
    have inOrder : w.slot ∈ mode.completionOrder := order ▸ List.mem_append_right _ List.mem_cons_self
    -- Nothing that is written after node `w.slot` is one of its children.
    have spared := mode.pairwise_completionOrder
    rw [order, List.pairwise_append] at spared
    have rest := (List.pairwise_cons.1 spared.2.1).1
    have final (child : UInt32)
        (family : child.toNat = 2 * w.slot.toNat ∨ child.toNat = 2 * w.slot.toNat + 1) :
        w.seen.node child = (pass mode id seed).tree.node child := by
      rw [pass_eq, tree_computed, order, Tree.fill, List.foldl_append, List.foldl_cons, seen]
      exact (Tree.node_fill_child id seed rest (mode.mem_completionOrder.1 inOrder).1 family _ _).symm
    obtain ⟨left, right⟩ := Tree.toNat_children inner
    exact ⟨final _ (.inl left), final _ (.inr right)⟩

/-- The public value of the one-time key at leaf `q`. -/
def Mode.keyBytes (mode : Mode) (id : Identifier) (seed : Octets mode.n) (q : Nat) : Bytes :=
  (OneTime.PrivateKey.derive (UInt32.ofNat q) id seed : OneTime.PrivateKey mode.oneTime).publicKey.k.bytes

namespace Tree

theorem size_fill (order : List UInt32) (tree : Tree mode) :
    (fill id seed order tree).nodes.size = tree.nodes.size := by
  induction order generalizing tree with
  | nil => rfl
  | cons r order ih => rw [fill_cons, ih, size_set]

theorem size_generate : (generate mode id seed).nodes.size = 2 ^ (mode.height + 1) := by
  refine (size_fill id seed mode.completionOrder (blank mode)).trans ?_
  simp [blank, mode.toNat_leaves, Nat.pow_succ']

theorem node_blank (r : UInt32) : (blank mode).node r = Octets.zero mode.n := by
  simp only [node, blank, Array.getD_eq_getD_getElem?, Array.getElem?_replicate]
  split <;> rfl

theorem node_zero_generate : (generate mode id seed).node 0 = Octets.zero mode.n := by
  have others : ∀ r ∈ mode.completionOrder, r.toNat ≠ (0 : UInt32).toNat :=
    fun r member => Nat.ne_of_gt (mode.mem_completionOrder.1 member).1
  exact (node_fill_of_ne id seed (blank mode) others).trans (node_blank 0)

def slotBytes (tree : Tree mode) (r : Nat) : Bytes := (tree.nodes.getD r (Octets.zero mode.n)).bytes

theorem slotBytes_eq (tree : Tree mode) {r : Nat} {x : UInt32} (number : x.toNat = r) :
    tree.slotBytes r = (tree.node x).bytes := by
  rw [slotBytes, node, number]

theorem nodeValues_generate : Standard.NodeValues mode.hash.onBytes id.bytes mode.height
    (mode.keyBytes id seed) (generate mode id seed).slotBytes where
  leaf r deep inTree := by
    rw [Nat.pow_succ'] at inTree
    obtain ⟨leaf, index⟩ : ∃ leaf : Leaf mode, leaf.index.toNat = r - 2 ^ mode.height :=
      Leaf.exists_toNat_index (by omega)
    have number : leaf.node.toNat = r := by
      rw [leaf.toNat_node]
      omega
    rw [slotBytes_eq _ number, node_generate_leaf, Mode.leafHash, HashFunction.bytes_apply,
      HashInput.encode_leaf, number, Mode.keyBytes, ← index, UInt32.ofNat_toNat,
      Mode.oneTimeValue]
  inner r positive inner := by
    have fits := mode.two_mul_leaves_lt
    have number : (UInt32.ofNat r).toNat = r := UInt32.toNat_ofNat_of_lt' (show r < 2 ^ 32 by omega)
    have above : UInt32.ofNat r < mode.leaves := by
      rw [UInt32.lt_iff_toNat_lt, mode.toNat_leaves, number]
      exact inner
    obtain ⟨left, right⟩ := toNat_children above
    rw [number] at left right
    rw [slotBytes_eq _ number, slotBytes_eq _ left, slotBytes_eq _ right,
      node_generate_inner id seed (by omega) above, Mode.interiorHash, HashFunction.bytes_apply,
      HashInput.encode_interior, number]

end Tree

/-- One pass over the leaves builds the tree of the standard. It writes the slots in the
order of completion, each of them once and no parent before its children are final, and
leaves in them the values which the equations of the standard, read from the top down,
give to the nodes. Slot zero keeps its zeros. -/
theorem pass_builds_tree (mode : Mode) (id : Identifier) (seed : Octets mode.n) :
    let tree := Tree.generate mode id seed
    let pass := Builder.pass mode id seed
    tree.nodes.size = 2 ^ (mode.height + 1) ∧ tree.slotBytes 0 = List.replicate mode.n 0 ∧
      Standard.NodeValues mode.hash.onBytes id.bytes mode.height (mode.keyBytes id seed) tree.slotBytes ∧
      (∀ r, 0 < r → r < 2 ^ (mode.height + 1) → tree.slotBytes r =
        Standard.nodeValue mode.hash.onBytes id.bytes mode.height (mode.keyBytes id seed) r) ∧
      pass.tree = tree ∧ pass.writes.map Write.slot = mode.completionOrder ∧ pass.Orderly := by
  have values := Tree.nodeValues_generate id seed
  have untouched := (Tree.generate mode id seed).slotBytes_eq UInt32.toNat_zero
  rw [Tree.node_zero_generate] at untouched
  exact ⟨Tree.size_generate id seed, untouched, values, fun r => values.eq_nodeValue,
    Builder.tree_pass id seed, Builder.slots_pass id seed, Builder.orderly_pass id seed⟩

theorem pass_builds_tree_twoLeaves :
    let mode : Mode := ⟨5, OneTime.ParameterSet.mode ⟨.n24, .w8⟩, 1, by decide⟩
    let seed : Octets mode.n := Octets.zero _
    let id : Identifier := Octets.zero _
    let tree := Tree.generate mode id seed
    let pass := Builder.pass mode id seed
    tree.nodes.size = 4 ∧
      tree.slotBytes 1 = mode.hash.onBytes (id.bytes ++ Standard.u32str 1 ++
        Standard.u16str Standard.dIntr ++ tree.slotBytes 2 ++ tree.slotBytes 3) ∧
      tree.slotBytes 3 = mode.hash.onBytes
        (id.bytes ++ Standard.u32str 3 ++ Standard.u16str Standard.dLeaf ++ mode.keyBytes id seed 1) ∧
      pass.writes.map Write.slot = [2, 3, 1] ∧ (pass.writes.map Write.slot).count 3 = 1 ∧
      ∀ w ∈ pass.writes, w.slot < 2 → w.seen.node (2 * w.slot) = tree.node (2 * w.slot) := by
  intro mode seed id tree pass
  obtain ⟨size, -, values, -, same, slots, orderly⟩ := pass_builds_tree mode id seed
  have order : pass.writes.map Write.slot = [2, 3, 1] := slots.trans (by decide)
  refine ⟨size, values.inner 1 (by decide) (by decide), values.leaf 3 (by decide) (by decide), order,
    orderly.once 3, ?_⟩
  intro w member inner
  exact (orderly.ready w member inner).1.trans (congrArg (Tree.node · (2 * w.slot)) same)

end ManyTime

end HashSig
