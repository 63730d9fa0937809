import HashSig.Octets
import Mathlib.Algebra.Ring.Nat

/-! Verification as RFC 8554 has it, over byte strings and natural numbers.

The strings and coefficients of section 3.1, the tables of parameter sets with the
ones for shorter hashes, and Algorithms 4b, 6a and 6, with the loops that are written
there. Numbers are not bounded and strings have no length of their own; what a string
that is too short or too long means is left to `Fields.WellFormed`.
-/

set_option autoImplicit false

namespace HashSig.Standard

/-! ## Strings -/

def u8str (x : Nat) : Bytes := [UInt8.ofNat x]

def u16str (x : Nat) : Bytes := [UInt8.ofNat (x / 2 ^ 8), UInt8.ofNat x]

def u32str (x : Nat) : Bytes :=
  [UInt8.ofNat (x / 2 ^ 24), UInt8.ofNat (x / 2 ^ 16), UInt8.ofNat (x / 2 ^ 8), UInt8.ofNat x]

/-- The `i`-th of the `w`-bit values of which the string `S` is made. -/
def coef (S : Bytes) (i w : Nat) : Nat :=
  (2 ^ w - 1) &&& ((S.getD (i * w / 8) 0).toNat >>> (8 - (w * (i % (8 / w)) + w)))

def dPblc : Nat := 0x8080
def dMesg : Nat := 0x8181
def dLeaf : Nat := 0x8282
def dIntr : Nat := 0x8383

/-! ## Parameter sets -/

structure OneTimeRow where
  n : Nat
  w : Nat
  p : Nat
  ls : Nat

structure TreeRow where
  m : Nat
  h : Nat

def oneTimeRow? : Nat → Option OneTimeRow
  | 1 => some ⟨32, 1, 265, 7⟩
  | 2 => some ⟨32, 2, 133, 6⟩
  | 3 => some ⟨32, 4, 67, 4⟩
  | 4 => some ⟨32, 8, 34, 0⟩
  | 5 => some ⟨24, 1, 200, 8⟩
  | 6 => some ⟨24, 2, 101, 6⟩
  | 7 => some ⟨24, 4, 51, 4⟩
  | 8 => some ⟨24, 8, 26, 0⟩
  | _ => none

def treeRow? : Nat → Option TreeRow
  | 5 => some ⟨32, 5⟩
  | 6 => some ⟨32, 10⟩
  | 7 => some ⟨32, 15⟩
  | 8 => some ⟨32, 20⟩
  | 9 => some ⟨32, 25⟩
  | 10 => some ⟨24, 5⟩
  | 11 => some ⟨24, 10⟩
  | 12 => some ⟨24, 15⟩
  | 13 => some ⟨24, 20⟩
  | 14 => some ⟨24, 25⟩
  | _ => none

/-! ## Candidates -/

/-- The checksum of a message hash. -/
def checksum (row : OneTimeRow) (S : Bytes) : Nat :=
  ((List.range (row.n * 8 / row.w)).map fun i => 2 ^ row.w - 1 - coef S i row.w).sum <<< row.ls

section

variable (H : Bytes → Bytes) (I : Bytes)

/-- Steps `a` to `top - 1` of chain `i`. -/
def chain (q i a top : Nat) (tmp : Bytes) : Bytes :=
  (List.range' a (top - a)).foldl
    (fun tmp j => H (I ++ u32str q ++ u16str i ++ u8str j ++ tmp)) tmp

/-- Algorithm 4b, from the fields of the signature on. -/
def candidateKey (row : OneTimeRow) (q : Nat) (msg C : Bytes) (y : List Bytes) : Bytes :=
  let Q := H (I ++ u32str q ++ u16str dMesg ++ C ++ msg)
  let z := (List.range row.p).map fun i =>
    chain H I q i (coef (Q ++ u16str (checksum row Q)) i row.w) (2 ^ row.w - 1) (y.getD i [])
  H (I ++ u32str q ++ u16str dPblc ++ z.flatten)

/-- The loop of Algorithm 6a. -/
def climb (path : List Bytes) (nodeNum i : Nat) (tmp : Bytes) : Bytes :=
  if 1 < nodeNum then
    climb path (nodeNum / 2) (i + 1)
      (if nodeNum % 2 = 1 then
        H (I ++ u32str (nodeNum / 2) ++ u16str dIntr ++ path.getD i [] ++ tmp)
      else
        H (I ++ u32str (nodeNum / 2) ++ u16str dIntr ++ tmp ++ path.getD i []))
  else
    tmp
termination_by nodeNum

/-- Algorithm 6a, from the fields of the signature on. -/
def candidateRoot (row : OneTimeRow) (tree : TreeRow) (q : Nat) (msg C : Bytes)
    (y path : List Bytes) : Bytes :=
  let nodeNum := 2 ^ tree.h + q
  climb H I path nodeNum 0
    (H (I ++ u32str nodeNum ++ u16str dLeaf ++ candidateKey H I row q msg C y))

end

/-! ## Verification -/

structure Fields where
  treeType : Nat
  oneTimeType : Nat
  I : Bytes
  K : Bytes
  q : Nat
  C : Bytes
  y : List Bytes
  path : List Bytes

namespace Fields

def publicKey (f : Fields) : Bytes := u32str f.treeType ++ u32str f.oneTimeType ++ f.I ++ f.K

def signature (f : Fields) : Bytes :=
  u32str f.q ++ u32str f.oneTimeType ++ f.C ++ f.y.flatten ++ u32str f.treeType ++ f.path.flatten

/-- The types are registered with these rows and with one hash size, and each field has
the size and the range that they say. -/
structure WellFormed (f : Fields) (row : OneTimeRow) (tree : TreeRow) : Prop where
  treeType : treeRow? f.treeType = some tree
  oneTimeType : oneTimeRow? f.oneTimeType = some row
  sizes : tree.m = row.n
  I : f.I.length = 16
  K : f.K.length = tree.m
  q : f.q < 2 ^ tree.h
  C : f.C.length = row.n
  y : f.y.length = row.p ∧ ∀ value ∈ f.y, value.length = row.n
  path : f.path.length = tree.h ∧ ∀ node ∈ f.path, node.length = tree.m

end Fields

/-- `H`, which is SHA-256 in the standard, cut to `m` bytes. -/
def hash (H : Bytes → Octets 32) (m : Nat) (b : Bytes) : Bytes := (H b).bytes.take m

/-- Algorithm 6 answers that the signature is valid. -/
def Valid (H : Bytes → Octets 32) (publicKey msg signature : Bytes) : Prop :=
  ∃ f row tree, Fields.WellFormed f row tree ∧ publicKey = f.publicKey ∧ signature = f.signature ∧
    f.K = candidateRoot (hash H tree.m) f.I row tree f.q msg f.C f.y f.path

end HashSig.Standard
