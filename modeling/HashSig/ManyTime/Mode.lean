import HashSig.ManyTime.ParameterSet
import HashSig.OneTime.PrivateKey

/-! Modes of many-time signing.

A mode is a one-time mode whose keys are the leaves of a tree of any height for
which all node numbers fit in a word. Node numbers start with one at the root;
the children of node `r` are `2 * r` and `2 * r + 1`, so leaf `q` is node
`q + leaves`.
-/

set_option autoImplicit false

namespace HashSig.ManyTime

structure Mode where
  typecode : UInt32
  oneTime : OneTime.Mode
  height : Nat
  nodes_fit : Nat.pow 2 (height + 1) < UInt32.size

/-- The tree of a registered set over one-time keys of another. -/
def ParameterSet.modeWith (s : ParameterSet) (H : Digest) (oneTime : OneTime.ParameterSet) : Mode where
  typecode := s.typecode
  oneTime := oneTime.modeWith H
  height := s.height.levels
  nodes_fit := by cases s.height <;> decide

abbrev ParameterSet.mode (s : ParameterSet) (oneTime : OneTime.ParameterSet) : Mode :=
  s.modeWith Sha256.digest oneTime

namespace Mode

abbrev hash (mode : Mode) : HashFunction := mode.oneTime.hash

abbrev n (mode : Mode) : Nat := mode.oneTime.n

def leaves (mode : Mode) : UInt32 := 1 <<< UInt32.ofNat mode.height

abbrev publicKeyLength (mode : Mode) : Nat := 24 + mode.n

abbrev privateKeyLength (mode : Mode) : Nat := 28 + mode.n

abbrev signatureLength (mode : Mode) : Nat :=
  8 + mode.oneTime.signatureLength + mode.height * mode.n

/-- Refuses a typecode that is unknown, and then one that is not the mode's. -/
def expectTypecode (mode : Mode) (got : UInt32) : Except Error Unit :=
  match ParameterSet.lookup got with
  | .error e => .error e
  | .ok _ => if got = mode.typecode then .ok () else .error (.wrongAlgorithm mode.typecode got)

def header (mode : Mode) : Bytes :=
  Bytes.ofUInt32 mode.typecode ++ Bytes.ofUInt32 mode.oneTime.typecode

@[simp] theorem length_header (mode : Mode) : mode.header.length = 8 := rfl

/-- Refuses a string that is too `short` for two typecodes, and then one whose
typecodes are not the mode's. -/
def expectHeader (mode : Mode) (short : Error) (b : Bytes) : Except Error Unit := do
  let some manyTime := b.uint32At? 0 | throw short
  let some oneTime := b.uint32At? 4 | throw short
  mode.expectTypecode manyTime
  mode.oneTime.expectTypecode oneTime

end Mode

@[ext] structure Leaf (mode : Mode) where
  index : UInt32
  index_lt : index < mode.leaves
  deriving DecidableEq

def Leaf.node {mode : Mode} (leaf : Leaf mode) : UInt32 := leaf.index + mode.leaves

end HashSig.ManyTime
