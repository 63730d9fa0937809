import HashSig.OneTime.Mode

/-! Hash chains.

A digit is signed by walking its chain as many steps as the digit says; the
verifier walks the steps that are left and must reach the public end.
-/

set_option autoImplicit false

namespace HashSig.OneTime.Mode

/-- Walks `steps` steps of chain `i` from its value number `start`. -/
def walk (mode : Mode) (id : Identifier) (q : UInt32) (i : Nat) :
    (start steps : Nat) → Octets mode.n → Octets mode.n
  | _, 0, value => value
  | start, steps + 1, value =>
    walk mode id q i (start + 1) steps
      (mode.hash.apply (.chainStep id q (UInt16.ofNat i) (UInt8.ofNat start) value))

/-- The end of chain `i`, seen from its value number `digit`. -/
def finish (mode : Mode) (id : Identifier) (q : UInt32) (i : Nat) (digit : UInt8)
    (value : Octets mode.n) : Octets mode.n :=
  mode.walk id q i digit.toNat (mode.width.maxDigit - digit.toNat) value

def messageDigits (mode : Mode) (id : Identifier) (q : UInt32) (c : Octets mode.n) (msg : Bytes) :
    List UInt8 :=
  mode.parameters.expand (mode.hash.apply (.message id q c msg))

theorem length_messageDigits (mode : Mode) (id : Identifier) (q : UInt32) (c : Octets mode.n)
    (msg : Bytes) : (mode.messageDigits id q c msg).length = mode.chains :=
  ParameterSet.length_expand _ _

end HashSig.OneTime.Mode
