import HashSig.ManyTime.PublicKey

/-! What is hashed on the way to a value.

A computation in `Hashed` takes hashes only by asking for them (`HashFunction.ask`) and
keeps its requests, in order. A request is a hash input whose chain and step have the
numbers by which they are counted, before these are cut to the two bytes and the one byte
that they have in the input. The verifier's computation is written out in this way, for
one-time keys (`Signature.value_recoverHashed`) and for trees of them
(`PublicKey.value_checkHashed`).
-/

set_option autoImplicit false

namespace HashSig

inductive Request (n : Nat) where
  | chainStart (id : Identifier) (q : UInt32) (i : Nat) (seed : Octets n)
  | randomizer (id : Identifier) (q : UInt32) (seed : Octets n)
  | chainStep (id : Identifier) (q : UInt32) (i j : Nat) (value : Octets n)
  | publicValue (id : Identifier) (q : UInt32) (ends : List (Octets n))
  | message (id : Identifier) (q : UInt32) (c : Octets n) (msg : Bytes)
  | leaf (id : Identifier) (r : UInt32) (key : Octets n)
  | interior (id : Identifier) (r : UInt32) (left right : Octets n)
  deriving DecidableEq

def Request.input {n : Nat} : Request n → HashInput n
  | .chainStart id q i seed => .chainStart id q (UInt16.ofNat i) seed
  | .randomizer id q seed => .randomizer id q seed
  | .chainStep id q i j value => .chainStep id q (UInt16.ofNat i) (UInt8.ofNat j) value
  | .publicValue id q ends => .publicValue id q ends
  | .message id q c msg => .message id q c msg
  | .leaf id r key => .leaf id r key
  | .interior id r left right => .interior id r left right

/-- A value and the requests on the way to it, in order. -/
structure Hashed (n : Nat) (α : Type) where
  value : α
  requests : List (Request n)

namespace Hashed

variable {n : Nat} {α β : Type}

instance : Monad (Hashed n) where
  pure a := ⟨a, []⟩
  bind x f := ⟨(f x.value).value, x.requests ++ (f x.value).requests⟩

def inputs (x : Hashed n α) : List (HashInput n) := x.requests.map Request.input

def all (xs : List (Hashed n α)) : Hashed n (List α) := ⟨xs.map value, xs.flatMap requests⟩

@[simp] theorem value_pure (a : α) : (pure a : Hashed n α).value = a := rfl

@[simp] theorem inputs_pure (a : α) : (pure a : Hashed n α).inputs = [] := rfl

@[simp] theorem value_bind (x : Hashed n α) (f : α → Hashed n β) :
    (x >>= f).value = (f x.value).value := rfl

@[simp] theorem inputs_bind (x : Hashed n α) (f : α → Hashed n β) :
    (x >>= f).inputs = x.inputs ++ (f x.value).inputs := List.map_append

@[simp] theorem inputs_all (xs : List (Hashed n α)) : (all xs).inputs = xs.flatMap inputs :=
  List.map_flatMap

end Hashed

def HashFunction.ask (hash : HashFunction) (request : Request hash.size.octets) :
    Hashed hash.size.octets (Octets hash.size.octets) :=
  ⟨hash.apply request.input, [request]⟩

namespace OneTime

variable {mode : Mode} (id : Identifier) (q : UInt32)

def Mode.walkHashed (mode : Mode) (id : Identifier) (q : UInt32) (i : Nat) :
    (start steps : Nat) → Octets mode.n → Hashed mode.n (Octets mode.n)
  | _, 0, value => pure value
  | start, steps + 1, value => do
    let next ← mode.hash.ask (.chainStep id q i start value)
    walkHashed mode id q i (start + 1) steps next

theorem Mode.value_walkHashed (i start steps : Nat) (value : Octets mode.n) :
    (mode.walkHashed id q i start steps value).value = mode.walk id q i start steps value := by
  induction steps generalizing start value with
  | zero => rfl
  | succ steps ih => exact ih (start + 1) _

-- The inputs of a walk are those of its two parts.
theorem Mode.inputs_walkHashed_add (i start a b : Nat) (value : Octets mode.n) :
    (mode.walkHashed id q i start (a + b) value).inputs =
      (mode.walkHashed id q i start a value).inputs ++
        (mode.walkHashed id q i (start + a) b (mode.walk id q i start a value)).inputs := by
  induction a generalizing start value with
  | zero => rw [Nat.zero_add]; rfl
  | succ a ih =>
    have later : start + 1 + a = start + (a + 1) := by omega
    rw [Nat.succ_add, walkHashed, Hashed.inputs_bind, ih, later]
    rfl

namespace Signature

def endsHashed (s : Signature mode) (id : Identifier) (q : UInt32) (digits : List UInt8) :
    Hashed mode.n (List (Octets mode.n)) :=
  Hashed.all ((digits.zip s.y).mapIdx fun i (digit, value) =>
    mode.walkHashed id q i digit.toNat (mode.width.maxDigit - digit.toNat) value)

/-- Recovers the key as `Signature.recover` does. -/
def recoverHashed (s : Signature mode) (id : Identifier) (q : UInt32) (msg : Bytes) :
    Hashed mode.n (PublicKey mode) := do
  let hash ← mode.hash.ask (.message id q s.c msg)
  let ends ← s.endsHashed id q (mode.parameters.expand hash)
  let k ← mode.hash.ask (.publicValue id q ends)
  return ⟨q, id, k⟩

theorem value_endsHashed (s : Signature mode) (msg : Bytes) :
    (s.endsHashed id q (mode.messageDigits id q s.c msg)).value = s.ends id q msg := by
  rw [endsHashed, Hashed.all, ends, List.mapIdx_eq_zipIdx_map, List.mapIdx_eq_zipIdx_map, List.map_map]
  refine List.map_congr_left fun pair _ => ?_
  exact mode.value_walkHashed id q pair.2 _ _ _

theorem value_recoverHashed (s : Signature mode) (msg : Bytes) :
    (s.recoverHashed id q msg).value = s.recover id q msg := by
  have ends := s.value_endsHashed id q msg
  simp only [recoverHashed, Hashed.value_bind, Hashed.value_pure, recover]
  exact congrArg (fun ends => PublicKey.mk q id (mode.hash.apply (.publicValue id q ends))) ends

theorem inputs_recoverHashed (s : Signature mode) (msg : Bytes) :
    (s.recoverHashed id q msg).inputs = .message id q s.c msg ::
      ((s.endsHashed id q (mode.messageDigits id q s.c msg)).inputs ++
        [.publicValue id q (s.ends id q msg)]) := by
  rw [← value_endsHashed, recoverHashed, Hashed.inputs_bind, Hashed.inputs_bind]
  rfl

end Signature

end OneTime

/-- What is hashed for the parent of node `r`, from the node's value and that of its
sibling. -/
def HashInput.joining {n : Nat} (id : Identifier) (r : UInt32) (value sibling : Octets n) : HashInput n :=
  if r % 2 = 1 then .interior id (r / 2) sibling value else .interior id (r / 2) value sibling

namespace ManyTime

variable {mode : Mode} {id : Identifier}

namespace Mode

theorem climb_cons (r : UInt32) (value sibling : Octets mode.n) (path : List (Octets mode.n)) :
    mode.climb id r value (sibling :: path) =
      mode.climb id (r / 2) (mode.hash.apply (.joining id r value sibling)) path := by
  rw [climb, HashInput.joining, apply_ite mode.hash.apply]
  rfl

def climbHashed (mode : Mode) (id : Identifier) :
    (r : UInt32) → (value : Octets mode.n) → List (Octets mode.n) → Hashed mode.n (Octets mode.n)
  | _, value, [] => pure value
  | r, value, sibling :: path => do
    let parent ← mode.hash.ask (if r % 2 = 1 then .interior id (r / 2) sibling value
      else .interior id (r / 2) value sibling)
    climbHashed mode id (r / 2) parent path

theorem value_climbHashed (r : UInt32) (value : Octets mode.n) (path : List (Octets mode.n)) :
    (mode.climbHashed id r value path).value = mode.climb id r value path := by
  induction path generalizing r value with
  | nil => rfl
  | cons sibling path ih =>
    rw [climb_cons, HashInput.joining, climbHashed]
    split <;> exact ih (r / 2) _

theorem inputs_climbHashed_cons (r : UInt32) (value sibling : Octets mode.n)
    (path : List (Octets mode.n)) :
    (mode.climbHashed id r value (sibling :: path)).inputs = .joining id r value sibling ::
      (mode.climbHashed id (r / 2) (mode.hash.apply (.joining id r value sibling)) path).inputs := by
  rw [HashInput.joining, climbHashed]
  split <;> rfl

end Mode

namespace Signature

def recoverHashed (s : Signature mode) (id : Identifier) (msg : Bytes) :
    Hashed mode.n (Octets mode.n) := do
  let key ← s.oneTime.recoverHashed id s.leaf.index msg
  let leaf ← mode.hash.ask (.leaf id s.leaf.node key.k)
  mode.climbHashed id s.leaf.node leaf s.path

def leafInput (s : Signature mode) (id : Identifier) (msg : Bytes) : HashInput mode.n :=
  .leaf id s.leaf.node (s.oneTime.recover id s.leaf.index msg).k

theorem recover_eq_climb (s : Signature mode) (msg : Bytes) :
    s.recover id msg = mode.climb id s.leaf.node (mode.hash.apply (s.leafInput id msg)) s.path := rfl

theorem value_recoverHashed (s : Signature mode) (msg : Bytes) :
    (s.recoverHashed id msg).value = s.recover id msg := by
  simp only [recoverHashed, Hashed.value_bind, OneTime.Signature.value_recoverHashed,
    Mode.value_climbHashed]
  rfl

theorem inputs_recoverHashed (s : Signature mode) (msg : Bytes) :
    (s.recoverHashed id msg).inputs = (s.oneTime.recoverHashed id s.leaf.index msg).inputs ++
      s.leafInput id msg ::
        (mode.climbHashed id s.leaf.node (mode.hash.apply (s.leafInput id msg)) s.path).inputs := by
  simp only [recoverHashed, Hashed.inputs_bind, OneTime.Signature.value_recoverHashed]
  rfl

end Signature

namespace PublicKey

variable {key : PublicKey mode} {s : Signature mode} {msg : Bytes}

def checkHashed (key : PublicKey mode) (msg : Bytes) (s : Signature mode) :
    Hashed mode.n (Except Error Unit) := do
  let root ← s.recoverHashed key.id msg
  return if key.root = root then .ok () else .error .verificationFailed

theorem value_checkHashed : (key.checkHashed msg s).value = key.check msg s := by
  simp only [checkHashed, Hashed.value_bind, Signature.value_recoverHashed, Hashed.value_pure, check]

theorem inputs_checkHashed : (key.checkHashed msg s).inputs = (s.recoverHashed key.id msg).inputs := by
  rw [checkHashed, Hashed.inputs_bind, Hashed.inputs_pure, List.append_nil]

theorem leafInput_mem_inputs : s.leafInput key.id msg ∈ (key.checkHashed msg s).inputs := by
  rw [inputs_checkHashed, Signature.inputs_recoverHashed]
  exact List.mem_append_right _ List.mem_cons_self

theorem climb_inputs_subset (key : PublicKey mode) (msg : Bytes) (s : Signature mode) :
    (mode.climbHashed key.id s.leaf.node (mode.hash.apply (s.leafInput key.id msg)) s.path).inputs ⊆
      (key.checkHashed msg s).inputs := by
  intro input member
  rw [inputs_checkHashed, Signature.inputs_recoverHashed]
  exact List.mem_append_right _ (List.mem_cons_of_mem _ member)

end PublicKey

end ManyTime

end HashSig
