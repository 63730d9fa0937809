import HashSig.ManyTime.Mode

/-! The tree over the one-time public keys of a key.

A tree is filled in one pass over the leaves. A node is complete once its right
child is, so each leaf is followed by those of its ancestors that it completes,
and every node finds its children ready. From a leaf, the siblings along the way
up are what a verifier needs to reach the root.
-/

set_option autoImplicit false

namespace HashSig.ManyTime

namespace Mode

variable (mode : Mode)

def leafHash (id : Identifier) (r : UInt32) (key : Octets mode.n) : Octets mode.n :=
  mode.hash.apply (.leaf id r key)

def interiorHash (id : Identifier) (r : UInt32) (left right : Octets mode.n) : Octets mode.n :=
  mode.hash.apply (.interior id r left right)

def oneTimeValue (id : Identifier) (seed : Octets mode.n) (q : UInt32) : Octets mode.n :=
  (OneTime.PrivateKey.derive q id seed : OneTime.PrivateKey mode.oneTime).publicKey.k

end Mode

/-- A node `depth` levels below the root, followed by the ancestors that are
complete when it is: a right child completes its parent. -/
def completed : (depth : Nat) → (r : UInt32) → List UInt32
  | 0, r => [r]
  | depth + 1, r => if r % 2 = 1 then r :: completed depth (r / 2) else [r]

def Mode.completionOrder (mode : Mode) : List UInt32 :=
  (List.range mode.leaves.toNat).flatMap fun q =>
    completed mode.height (UInt32.ofNat q + mode.leaves)

/-- All nodes, each at the index that is its number; index zero is unused. -/
structure Tree (mode : Mode) where
  nodes : Array (Octets mode.n)

namespace Tree

variable {mode : Mode}

def node (tree : Tree mode) (r : UInt32) : Octets mode.n :=
  tree.nodes.getD r.toNat (Octets.zero mode.n)

def root (tree : Tree mode) : Octets mode.n := tree.node 1

def blank (mode : Mode) : Tree mode :=
  ⟨Array.replicate (2 * mode.leaves.toNat) (Octets.zero mode.n)⟩

def valueAt (id : Identifier) (seed : Octets mode.n) (tree : Tree mode) (r : UInt32) :
    Octets mode.n :=
  if mode.leaves ≤ r then
    mode.leafHash id r (mode.oneTimeValue id seed (r - mode.leaves))
  else
    mode.interiorHash id r (tree.node (2 * r)) (tree.node (2 * r + 1))

def set (tree : Tree mode) (r : UInt32) (value : Octets mode.n) : Tree mode :=
  ⟨tree.nodes.setIfInBounds r.toNat value⟩

def generate (mode : Mode) (id : Identifier) (seed : Octets mode.n) : Tree mode :=
  mode.completionOrder.foldl (fun tree r => tree.set r (tree.valueAt id seed r)) (blank mode)

/-- The siblings of the leaf and of its ancestors below the root, from the leaf up. -/
def path (tree : Tree mode) (leaf : Leaf mode) : List (Octets mode.n) :=
  (List.range mode.height).map fun level => tree.node ((leaf.node >>> UInt32.ofNat level) ^^^ 1)

@[simp] theorem length_path (tree : Tree mode) (leaf : Leaf mode) :
    (tree.path leaf).length = mode.height := by
  simp [path]

end Tree

/-- The node reached from node `r` with the given value by joining it, and then
each node so reached, with the next sibling of a path. -/
def Mode.climb (mode : Mode) (id : Identifier) :
    (r : UInt32) → (value : Octets mode.n) → List (Octets mode.n) → Octets mode.n
  | _, value, [] => value
  | r, value, sibling :: path =>
    climb mode id (r / 2)
      (if r % 2 = 1 then mode.interiorHash id (r / 2) sibling value
        else mode.interiorHash id (r / 2) value sibling)
      path

end HashSig.ManyTime
