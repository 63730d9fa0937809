import HashSig.OneTime.ParameterSet

/-! The parameter sets of many-time signatures.

A set is a hash size and the height of a tree whose leaves are one-time keys. It
can be written beside any one-time set, whatever that set's hash size; whether
the two fit is decided where they are used.
-/

set_option autoImplicit false

namespace HashSig.ManyTime

inductive Height where
  | h5
  | h10
  | h15
  | h20
  | h25
  deriving DecidableEq, Repr

def Height.levels : Height → Nat
  | .h5 => 5
  | .h10 => 10
  | .h15 => 15
  | .h20 => 20
  | .h25 => 25

structure ParameterSet where
  size : HashSize
  height : Height
  deriving DecidableEq, Repr

namespace ParameterSet

def leaves (s : ParameterSet) : UInt32 := 1 <<< UInt32.ofNat s.height.levels

def publicKeyLength (s : ParameterSet) : Nat := 24 + s.size.octets

def signatureLength (s : ParameterSet) (oneTime : OneTime.ParameterSet) : Nat :=
  8 + oneTime.signatureLength + s.height.levels * s.size.octets

def typecode : ParameterSet → UInt32
  | ⟨.n32, .h5⟩ => 5
  | ⟨.n32, .h10⟩ => 6
  | ⟨.n32, .h15⟩ => 7
  | ⟨.n32, .h20⟩ => 8
  | ⟨.n32, .h25⟩ => 9
  | ⟨.n24, .h5⟩ => 10
  | ⟨.n24, .h10⟩ => 11
  | ⟨.n24, .h15⟩ => 12
  | ⟨.n24, .h20⟩ => 13
  | ⟨.n24, .h25⟩ => 14

def name (s : ParameterSet) : String :=
  "LmsSha256M" ++ s.size.octets.repr ++ "H" ++ s.height.levels.repr

def all : List ParameterSet :=
  [⟨.n32, .h5⟩, ⟨.n32, .h10⟩, ⟨.n32, .h15⟩, ⟨.n32, .h20⟩, ⟨.n32, .h25⟩,
    ⟨.n24, .h5⟩, ⟨.n24, .h10⟩, ⟨.n24, .h15⟩, ⟨.n24, .h20⟩, ⟨.n24, .h25⟩]

def lookup (typecode : UInt32) : Except Error ParameterSet :=
  match all.find? (fun s => s.typecode == typecode) with
  | some s => .ok s
  | none => .error (.unsupportedParameter typecode)

theorem mem_all (s : ParameterSet) : s ∈ all := by
  rcases s with ⟨_ | _, _ | _ | _ | _ | _⟩ <;> decide

theorem lookup_typecode (s : ParameterSet) : lookup s.typecode = .ok s := by
  rcases s with ⟨_ | _, _ | _ | _ | _ | _⟩ <;> rfl

theorem typecode_injective {s t : ParameterSet} (same : s.typecode = t.typecode) : s = t := by
  have found := lookup_typecode s
  rw [same, lookup_typecode] at found
  exact (Except.ok.inj found).symm

end ParameterSet

end HashSig.ManyTime
