import HashSig.Proofs.GuardedTree

/-! A tree that is built level by level.

The values of the leaves are computed first, each apart from the others. A level is one string:
it is copied into its slots, and cut into pairs it makes the level above. The slots from the
copied level on are then those of the finished tree (`Tree.Reaches`), and after the root that
is all of them. No step meets a fault, and the tree is the one that a pass over the leaves
builds (`Tree.generateByLevels_eq`).
-/

set_option autoImplicit false

namespace HashSig.ManyTime

open Guarded

variable {mode : Mode}

namespace Tree

/-! ## Building -/

def copyLevel (tree : Tree mode) (first : Nat) (level : Bytes) : Guarded (Tree mode) := do
  let stop ← mul 32 2 first
  assert (first ≤ stop ∧ stop ≤ tree.nodes.size)
  let nodes ← chunks mode.n level
  ((List.range' first (stop - first)).zip nodes).foldlM (fun tree (r, node) => do
    tree.setGuarded (UInt32.ofNat r) (← granted (Octets.ofBytes? mode.n node))) tree

def joinPair (mode : Mode) (id : Identifier) (r : Nat) (pair : Bytes) : Guarded (Octets mode.n) := do
  let (left, right) ← splitAt pair mode.n
  let left ← granted (Octets.ofBytes? mode.n left)
  let right ← granted (Octets.ofBytes? mode.n right)
  return mode.interiorHash id (UInt32.ofNat r) left right

def joinLevel (mode : Mode) (id : Identifier) (first : Nat) (level : Bytes) : Guarded Bytes := do
  let pairs ← chunks (← mul lengthBits 2 mode.n) level
  let nodes ← pairs.zipIdx.mapM fun (pair, j) => do
    joinPair mode id (← add 32 first (← cast 32 j)) pair
  return Octets.join nodes

def copyUp (id : Identifier) (tree : Tree mode) (first : Nat) (level : Bytes) : Guarded (Tree mode) := do
  let tree ← tree.copyLevel first level
  if first = 1 then
    return tree
  -- Zero could be halved without end.
  else if 1 < first then
    copyUp id tree (first / 2) (← joinLevel mode id (first / 2) level)
  else
    throw .assertion
termination_by first

def generateByLevels (mode : Mode) (id : Identifier) (seed : Octets mode.n) : Guarded (Tree mode) := do
  let leaves ← mode.leavesGuarded
  let values ← (List.range leaves).mapM (leafValueGuarded mode id seed)
  let slots ← mul 32 2 leaves
  copyUp id ⟨Array.replicate slots (Octets.zero mode.n)⟩ leaves (Octets.join values)

/-! ## Levels -/

variable {id : Identifier} {source tree : Tree mode}

def level (tree : Tree mode) (first : Nat) : List (Octets mode.n) :=
  (List.range' first first).map fun r => tree.node (UInt32.ofNat r)

theorem join_level (first : Nat) :
    Octets.join (tree.level first) =
      (List.range' first first).flatMap fun r => (tree.node (UInt32.ofNat r)).bytes :=
  List.flatMap_map _ _ _

def children (tree : Tree mode) (r : Nat) : Bytes :=
  (tree.node (UInt32.ofNat (2 * r))).bytes ++ (tree.node (UInt32.ofNat (2 * r + 1))).bytes

theorem length_children (r : Nat) : (tree.children r).length = 2 * mode.n := by
  rw [children, List.length_append, Octets.length_eq, Octets.length_eq, Nat.two_mul]

-- A level consists of the children of the level above it.
theorem join_level_double (first : Nat) :
    Octets.join (tree.level (2 * first)) = (List.range' first first).flatMap tree.children := by
  have pairs (start count : Nat) :
      (List.range' (2 * start) (2 * count)).flatMap (fun r => (tree.node (UInt32.ofNat r)).bytes) =
        (List.range' start count).flatMap tree.children := by
    induction count generalizing start with
    | zero => rfl
    | succ count ih =>
      rw [Nat.mul_succ, List.range'_succ, List.range'_succ, List.range'_succ, List.flatMap_cons, List.flatMap_cons,
        List.flatMap_cons, ← List.append_assoc, ← ih (start + 1)]
      rfl
  rw [join_level, pairs]

theorem Joined.joinPair_eq (joined : tree.Joined id) {r : Nat} (positive : 0 < r) (inner : r < 2 ^ mode.height) :
    joinPair mode id r (tree.children r) = .ok (tree.node (UInt32.ofNat r)) := by
  have fits := mode.two_mul_leaves_lt
  have number : (UInt32.ofNat r).toNat = r := UInt32.toNat_ofNat_of_lt' (show r < 2 ^ 32 by omega)
  have below : UInt32.ofNat r < mode.leaves := by
    rw [UInt32.lt_iff_toNat_lt, mode.toNat_leaves, number]
    exact inner
  have parent := joined (UInt32.ofNat r) (by omega) below
  have left : UInt32.ofNat (2 * r) = 2 * UInt32.ofNat r := UInt32.ofNat_mul _ _
  have right : UInt32.ofNat (2 * r + 1) = 2 * UInt32.ofNat r + 1 := by
    rw [UInt32.ofNat_add, left]
    rfl
  have whole : mode.n ≤ (tree.children r).length := by
    rw [length_children]
    exact Nat.le_mul_of_pos_left _ Nat.two_pos
  rw [joinPair, splitAt_eq whole, ok_bind, children, List.take_left' (Octets.length_eq _),
    List.drop_left' (Octets.length_eq _)]
  simp only [Octets.ofBytes?_bytes, left, right]
  rw [parent]
  rfl

theorem Joined.joinLevel_eq (joined : tree.Joined id) {first : Nat} (positive : 0 < first)
    (inner : 2 * first ≤ 2 ^ mode.height) :
    joinLevel mode id first (Octets.join (tree.level (2 * first))) = .ok (Octets.join (tree.level first)) := by
  have fits := mode.two_mul_leaves_lt
  have node := mode.hash.size.octets_bounds
  have small : 2 * mode.n < 2 ^ lengthBits := Nat.lt_of_le_of_lt (Nat.mul_le_mul_left 2 node.2) (by decide)
  -- The pair that is counted as `j` makes node `first + j`.
  have order : ((List.range' first first).map tree.children).zipIdx.map
      (fun pair => tree.node (UInt32.ofNat (first + pair.2))) = tree.level first := by
    refine List.ext_getElem (by simp [level]) fun j _ _ => ?_
    simp [level]
  rw [joinLevel, mul_eq small, ok_bind, join_level_double,
    chunks_flatMap (Nat.mul_pos Nat.two_pos node.1) fun r _ => length_children r, ok_bind,
    mapM_eq (g := fun pair => tree.node (UInt32.ofNat (first + pair.2))), ok_bind, order]
  · rfl
  · rintro ⟨pair, j⟩ member
    obtain ⟨-, inLevel, place⟩ := List.mem_zipIdx member
    rw [Nat.zero_add, List.length_map, List.length_range'] at inLevel
    have value : pair = tree.children (first + j) := by
      rw [place, List.getElem_map, List.getElem_range', Nat.sub_zero, Nat.one_mul]
    dsimp only
    rw [value, cast_eq (by omega), ok_bind, add_eq (by omega), ok_bind,
      joined.joinPair_eq (by omega) (by omega)]

/-! ## Copying -/

def copyNodes (source : Tree mode) (order : List Nat) (tree : Tree mode) : Tree mode :=
  order.foldl (fun tree r => tree.set (UInt32.ofNat r) (source.node (UInt32.ofNat r))) tree

theorem size_copyNodes (order : List Nat) : (source.copyNodes order tree).nodes.size = tree.nodes.size := by
  induction order generalizing tree with
  | nil => rfl
  | cons r order ih => exact ih.trans (size_set _ _ _)

theorem node_copyNodes {order : List Nat} (fits : tree.nodes.size < 2 ^ 32)
    (inTree : ∀ r ∈ order, r < tree.nodes.size) (x : UInt32) :
    (source.copyNodes order tree).node x =
      if x.toNat ∈ order then source.node x else tree.node x := by
  induction order generalizing tree with
  | nil => rfl
  | cons r order ih =>
    obtain ⟨here, later⟩ := List.forall_mem_cons.1 inTree
    have number : (UInt32.ofNat r).toNat = r := UInt32.toNat_ofNat_of_lt' (Nat.lt_trans here fits)
    rw [copyNodes, List.foldl_cons, ← copyNodes, ih (by rwa [size_set]) (by simpa using later)]
    by_cases same : x.toNat = r
    · have same : x = UInt32.ofNat r := UInt32.toNat_inj.1 (same.trans number.symm)
      subst same
      rw [node_set_self (number.symm ▸ here), ite_self, number, if_pos List.mem_cons_self]
    · rw [node_set_of_ne _ _ (number.symm ▸ same)]
      simp only [List.mem_cons, same, false_or]

/-- From slot `first` on, and in slot zero, the tree is as another one. -/
structure Reaches (tree source : Tree mode) (first : Nat) : Prop where
  size : tree.nodes.size = source.nodes.size
  same : ∀ r : UInt32, r.toNat = 0 ∨ first ≤ r.toNat → tree.node r = source.node r

theorem Reaches.eq (reaches : tree.Reaches source 1) (fits : source.nodes.size < 2 ^ 32) : tree = source := by
  obtain ⟨nodes⟩ := tree
  obtain ⟨others⟩ := source
  congr 1
  refine Array.ext reaches.size fun r inTree inTree' => ?_
  have number : (UInt32.ofNat r).toNat = r := UInt32.toNat_ofNat_of_lt' (Nat.lt_trans inTree' fits)
  have same := reaches.same (UInt32.ofNat r) (by omega)
  simpa only [node, number, Array.getD_eq_getD_getElem?, Array.getElem?_eq_getElem inTree,
    Array.getElem?_eq_getElem inTree', Option.getD_some] using same

theorem copyLevel_eq {first : Nat} (positive : 0 < first) (inTree : 2 * first ≤ tree.nodes.size)
    (fits : tree.nodes.size < 2 ^ 32) :
    tree.copyLevel first (Octets.join (source.level first)) =
      .ok (source.copyNodes (List.range' first first) tree) := by
  have width : 2 * first - first = first := by omega
  rw [copyLevel, mul_eq (by omega), ok_bind, assert_eq ⟨by omega, inTree⟩, ok_bind, join_level,
    chunks_flatMap mode.hash.size.octets_bounds.1 fun r _ => Octets.length_eq _, ok_bind, width]
  have slots : (List.range' first first).zip
      ((List.range' first first).map fun r => (source.node (UInt32.ofNat r)).bytes) =
        (List.range' first first).map fun r => (r, (source.node (UInt32.ofNat r)).bytes) := by
    rw [← List.zip_map', List.map_id']
  rw [slots, List.foldlM_map]
  refine foldlM_eq (fun tree => tree) (fun tree => 2 * first ≤ tree.nodes.size) inTree
    fun r member tree inTree => ?_
  obtain ⟨least, greatest⟩ := List.mem_range'_1.1 member
  have number : (UInt32.ofNat r).toNat = r := UInt32.toNat_ofNat_of_lt' (show r < 2 ^ 32 by omega)
  constructor
  · dsimp only
    rw [granted_eq (Octets.ofBytes?_bytes _), ok_bind, setGuarded_eq ⟨by omega, by omega⟩]
  · rwa [size_set]

theorem Reaches.copyNodes {first : Nat} (reaches : tree.Reaches source (2 * first))
    (inTree : 2 * first ≤ tree.nodes.size) (fits : tree.nodes.size < 2 ^ 32) :
    (source.copyNodes (List.range' first first) tree).Reaches source first where
  size := (size_copyNodes _).trans reaches.size
  same r range := by
    rw [node_copyNodes fits fun r member => ?_]
    · split
      · rfl
      · next other =>
        rw [List.mem_range'_1] at other
        exact reaches.same r (by omega)
    · have := List.mem_range'_1.1 member
      omega

-- Once its level is copied, the tree reaches further.
theorem Reaches.copyLevel {first : Nat} (reaches : tree.Reaches source (2 * first)) (positive : 0 < first)
    (inTree : 2 * first ≤ source.nodes.size) (fits : source.nodes.size < 2 ^ 32) :
    ∃ next, tree.copyLevel first (Octets.join (source.level first)) = .ok next ∧ next.Reaches source first := by
  rw [← reaches.size] at inTree fits
  exact ⟨_, copyLevel_eq positive inTree fits, reaches.copyNodes inTree fits⟩

/-! ## All levels -/

-- The induction is on the levels that are left; what is copied grows towards the root.
theorem Joined.copyUp_eq (joined : source.Joined id) (size : source.nodes.size = 2 * mode.leaves.toNat)
    {depth : Nat} (level : depth ≤ mode.height) (reaches : tree.Reaches source (2 * 2 ^ depth)) :
    tree.copyUp id (2 ^ depth) (Octets.join (source.level (2 ^ depth))) = .ok source := by
  have fits := mode.two_mul_leaves_lt
  rw [mode.toNat_leaves] at size
  induction depth generalizing tree with
  | zero =>
    have positive := Nat.two_pow_pos mode.height
    obtain ⟨next, copied, further⟩ := reaches.copyLevel (Nat.two_pow_pos 0) (by omega) (by omega)
    rw [copyUp, copied, ok_bind, if_pos (Nat.pow_zero 2), further.eq (by omega)]
    rfl
  | succ depth ih =>
    have wide := Nat.pow_le_pow_right (by decide : 0 < 2) level
    have positive := Nat.two_pow_pos depth
    have double : 2 ^ (depth + 1) = 2 * 2 ^ depth := Nat.pow_succ'
    obtain ⟨next, copied, further⟩ := reaches.copyLevel (Nat.two_pow_pos (depth + 1)) (by omega) (by omega)
    rw [double] at copied further wide
    rw [copyUp, double, copied, ok_bind, if_neg (by omega), if_pos (by omega),
      Nat.mul_div_cancel_left _ Nat.two_pos, joined.joinLevel_eq positive wide, ok_bind]
    exact ih (Nat.le_of_succ_le level) further

variable (id) (seed : Octets mode.n)

theorem leafValuesGuarded_eq : (List.range mode.leaves.toNat).mapM (leafValueGuarded mode id seed) =
    .ok ((generate mode id seed).level mode.leaves.toNat) := by
  rw [level, List.range'_eq_map_range, List.map_map]
  refine mapM_eq fun q member => ?_
  obtain ⟨leaf, rfl⟩ := Builder.mem_range_leaves member
  have number : mode.leaves.toNat + leaf.index.toNat = leaf.node.toNat := by
    rw [leaf.toNat_node, mode.toNat_leaves, Nat.add_comm]
  rw [leafValueGuarded_eq, Function.comp_apply, number, UInt32.ofNat_toNat, node_generate_leaf]

-- Behind its last slot every tree reads as zeros, and so does slot zero.
theorem reaches_blank : (blank mode).Reaches (generate mode id seed) (2 * 2 ^ mode.height) where
  size := Array.size_replicate.trans (size_generate_leaves id seed).symm
  same r range := by
    rw [node_blank]
    rcases range with zero | outside
    · have zero : r = 0 := UInt32.toNat_inj.1 zero
      rw [zero, node_zero_generate]
    · have none : (generate mode id seed).nodes.size ≤ r.toNat := by
        rwa [size_generate_leaves, mode.toNat_leaves]
      rw [node, Array.getD_eq_getD_getElem?, Array.getElem?_eq_none none]
      rfl

theorem generateByLevels_eq : generateByLevels mode id seed = .ok (generate mode id seed) := by
  have fits := mode.two_mul_leaves_lt
  rw [← mode.toNat_leaves] at fits
  have up := (joined_generate id seed).copyUp_eq (size_generate_leaves id seed) (Nat.le_refl _)
    (reaches_blank id seed)
  rw [← mode.toNat_leaves] at up
  rw [generateByLevels, mode.leavesGuarded_eq, ok_bind, leafValuesGuarded_eq, ok_bind, mul_eq fits, ok_bind]
  exact up

end Tree

end HashSig.ManyTime
