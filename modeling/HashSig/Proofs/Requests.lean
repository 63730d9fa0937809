import HashSig.ManyTime.PrivateKey
import HashSig.Proofs.Binding
import Mathlib.Data.List.Forall2

/-! What is asked to be hashed.

Making keys and signing are written out in `Hashed`, as verifying is. All of them lead to
the right values, and every request is in the range of the parameter set
(`Hashed.Computes`).
-/

set_option autoImplicit false

namespace HashSig

namespace Request

variable {n : Nat}

/-- The set has the chain and the chain has the step, or there is one end for each
chain. -/
def InRange (s : OneTime.ParameterSet) : Request n → Prop
  | .chainStart _ _ i _ => i < s.chains
  | .chainStep _ _ i j _ => i < s.chains ∧ j < s.width.maxDigit
  | .publicValue _ _ ends => ends.length = s.chains
  | .randomizer _ _ _ | .message _ _ _ _ | .leaf _ _ _ | .interior _ _ _ _ => True

instance (s : OneTime.ParameterSet) : (request : Request n) → Decidable (request.InRange s)
  | .chainStart _ _ i _ => inferInstanceAs (Decidable (i < s.chains))
  | .chainStep _ _ i j _ => inferInstanceAs (Decidable (i < s.chains ∧ j < s.width.maxDigit))
  | .publicValue _ _ ends => inferInstanceAs (Decidable (ends.length = s.chains))
  | .randomizer _ _ _ | .message _ _ _ _ | .leaf _ _ _ | .interior _ _ _ _ => .isTrue trivial

end Request

namespace Hashed

variable {n : Nat} {α β : Type}

/-- The computation leads to the value, and asks for nothing out of range. -/
structure Computes (s : OneTime.ParameterSet) (x : Hashed n α) (a : α) : Prop where
  value_eq : x.value = a
  inRange : ∀ request ∈ x.requests, request.InRange s

namespace Computes

variable {s : OneTime.ParameterSet}

theorem pure (a : α) : Computes s (Pure.pure a : Hashed n α) a := ⟨rfl, nofun⟩

theorem bind {x : Hashed n α} {a : α} {f : α → Hashed n β} {b : β} (first : x.Computes s a)
    (next : (f a).Computes s b) : (x >>= f).Computes s b := by
  obtain ⟨rfl, inRange⟩ := first
  refine ⟨next.value_eq, fun request member => ?_⟩
  rcases List.mem_append.1 member with before | later
  · exact inRange request before
  · exact next.inRange request later

theorem all {xs : List (Hashed n α)} {as : List α} (each : List.Forall₂ (Computes s) xs as) :
    (Hashed.all xs).Computes s as := by
  induction each with
  | nil => exact ⟨rfl, nofun⟩
  | cons first _ others =>
    refine ⟨congrArg₂ List.cons first.value_eq others.value_eq, fun request member => ?_⟩
    rcases List.mem_append.1 member with here | later
    · exact first.inRange request here
    · exact others.inRange request later

theorem all_map {l : List α} {f : α → Hashed n β} {g : α → β}
    (each : ∀ a ∈ l, (f a).Computes s (g a)) : (Hashed.all (l.map f)).Computes s (l.map g) := by
  refine all ?_
  rw [List.forall₂_map_left_iff, List.forall₂_map_right_iff, List.forall₂_same]
  exact each

theorem all_mapIdx {l : List α} {f : Nat → α → Hashed n β} {g : Nat → α → β}
    (each : ∀ i a, i < l.length → a ∈ l → (f i a).Computes s (g i a)) :
    (Hashed.all (l.mapIdx f)).Computes s (l.mapIdx g) := by
  rw [List.mapIdx_eq_zipIdx_map, List.mapIdx_eq_zipIdx_map]
  refine all_map fun ⟨a, i⟩ member => ?_
  obtain ⟨inside, same⟩ := List.mem_zipIdx' member
  exact each i a inside (same ▸ List.getElem_mem inside)

theorem foldlM {l : List α} {f : β → α → Hashed n β} {g : β → α → β} {b : β}
    (each : ∀ b a, a ∈ l → (f b a).Computes s (g b a)) :
    (l.foldlM f b).Computes s (l.foldl g b) := by
  induction l generalizing b with
  | nil => exact .pure b
  | cons a l ih =>
    rw [List.foldlM_cons]
    exact (each b a List.mem_cons_self).bind
      (ih fun b a member => each b a (List.mem_cons_of_mem _ member))

end Computes

end Hashed

theorem HashFunction.computes_ask (hash : HashFunction) {s : OneTime.ParameterSet}
    {request : Request hash.size.octets} (inRange : request.InRange s) :
    (hash.ask request).Computes s (hash.apply request.input) :=
  ⟨rfl, fun _ member => List.mem_singleton.1 member ▸ inRange⟩

/-! ## One-time keys and signatures -/

namespace OneTime

section

variable (mode : Mode) (id : Identifier) (q : UInt32)

def Mode.startsHashed (seed : Octets mode.n) : Hashed mode.n (List (Octets mode.n)) :=
  Hashed.all ((List.range mode.chains).map fun i => mode.hash.ask (.chainStart id q i seed))

def Mode.publicValueHashed (starts : List (Octets mode.n)) : Hashed mode.n (Octets mode.n) := do
  let ends ← Hashed.all (starts.mapIdx fun i start =>
    mode.walkHashed id q i 0 mode.width.maxDigit start)
  mode.hash.ask (.publicValue id q ends)

def Mode.signHashed (starts : List (Octets mode.n)) (msg : Bytes) (c : Octets mode.n) :
    Hashed mode.n (List (Octets mode.n)) := do
  let hash ← mode.hash.ask (.message id q c msg)
  Hashed.all (((mode.parameters.expand hash).zip starts).mapIdx fun i (digit, start) =>
    mode.walkHashed id q i 0 digit.toNat start)

end

variable {mode : Mode} {id : Identifier} {q : UInt32}

theorem Mode.computes_starts (mode : Mode) (id : Identifier) (q : UInt32) (seed : Octets mode.n) :
    (mode.startsHashed id q seed).Computes mode.parameters (PrivateKey.derive q id seed).starts :=
  .all_map fun _ member => mode.hash.computes_ask (List.mem_range.1 member)

theorem Mode.computes_walk {i start steps : Nat} (chain : i < mode.chains)
    (bound : start + steps ≤ mode.width.maxDigit) (value : Octets mode.n) :
    (mode.walkHashed id q i start steps value).Computes mode.parameters
      (mode.walk id q i start steps value) := by
  induction steps generalizing start value with
  | zero => exact .pure value
  | succ steps ih =>
    have step : (Request.chainStep id q i start value).InRange mode.parameters :=
      ⟨chain, Nat.lt_of_lt_of_le (Nat.lt_add_of_pos_right (Nat.succ_pos steps)) bound⟩
    exact (mode.hash.computes_ask step).bind (ih (by omega) _)

namespace PrivateKey

variable (key : PrivateKey mode)

theorem length_ends : key.ends.length = mode.chains := by
  rw [ends, List.length_mapIdx, key.starts_length]

theorem computes_publicValue :
    (mode.publicValueHashed key.id key.q key.starts).Computes mode.parameters key.publicKey.k := by
  refine .bind (.all_mapIdx fun i start inside _ => ?_) (mode.hash.computes_ask key.length_ends)
  exact Mode.computes_walk (key.starts_length ▸ inside) (Nat.le_of_eq (Nat.zero_add _)) start

theorem computes_sign (msg : Bytes) (c : Octets mode.n) :
    (mode.signHashed key.id key.q key.starts msg c).Computes mode.parameters (key.sign msg c).y := by
  refine .bind (mode.hash.computes_ask trivial) (.all_mapIdx fun i ⟨digit, start⟩ inside member => ?_)
  rw [List.length_zip, key.starts_length, ParameterSet.length_expand, Nat.min_self] at inside
  have bound := mode.parameters.le_maxDigit_of_mem_expand (List.of_mem_zip member).1
  exact Mode.computes_walk inside (Nat.le_trans (Nat.le_of_eq (Nat.zero_add _)) bound) start

end PrivateKey

theorem Signature.computes_recover (s : Signature mode) (id : Identifier) (q : UInt32) (msg : Bytes) :
    (s.recoverHashed id q msg).Computes mode.parameters (s.recover id q msg) := by
  refine .bind (mode.hash.computes_ask trivial) (.bind (.all_mapIdx ?_)
    (.bind (mode.hash.computes_ask (s.length_ends msg)) (.pure _)))
  intro i ⟨digit, value⟩ inside member
  rw [List.length_zip, s.y_length, ParameterSet.length_expand, Nat.min_self] at inside
  have bound := mode.parameters.le_maxDigit_of_mem_expand (List.of_mem_zip member).1
  exact Mode.computes_walk inside (Nat.le_of_eq (Nat.add_sub_cancel' bound)) value

structure Mode.AsksInRange (mode : Mode) : Prop where
  derive : ∀ id q seed, (mode.startsHashed id q seed).Computes mode.parameters
    (PrivateKey.derive q id seed).starts
  publicKey : ∀ key : PrivateKey mode, (mode.publicValueHashed key.id key.q key.starts).Computes
    mode.parameters key.publicKey.k
  sign : ∀ (key : PrivateKey mode) msg c, (mode.signHashed key.id key.q key.starts msg c).Computes
    mode.parameters (key.sign msg c).y
  recover : ∀ (s : Signature mode) id q msg, (s.recoverHashed id q msg).Computes mode.parameters
    (s.recover id q msg)

theorem Mode.asksInRange (mode : Mode) : mode.AsksInRange where
  derive := mode.computes_starts
  publicKey := PrivateKey.computes_publicValue
  sign := PrivateKey.computes_sign
  recover := Signature.computes_recover

end OneTime

/-! ## Many-time keys and signatures -/

namespace ManyTime

section

variable (mode : Mode) (id : Identifier)

def Tree.valueAtHashed {mode : Mode} (id : Identifier) (seed : Octets mode.n) (tree : Tree mode)
    (r : UInt32) : Hashed mode.n (Octets mode.n) :=
  if mode.leaves ≤ r then do
    let starts ← mode.oneTime.startsHashed id (r - mode.leaves) seed
    let key ← mode.oneTime.publicValueHashed id (r - mode.leaves) starts
    mode.hash.ask (.leaf id r key)
  else
    mode.hash.ask (.interior id r (tree.node (2 * r)) (tree.node (2 * r + 1)))

def Tree.generateHashed (seed : Octets mode.n) : Hashed mode.n (Tree mode) :=
  mode.completionOrder.foldlM (fun tree r => do
    let value ← tree.valueAtHashed id seed r
    return tree.set r value) (blank mode)

end

variable {mode : Mode}

def PrivateKey.signLeafHashed (key : PrivateKey mode) (leaf : Leaf mode) (msg : Bytes)
    (c : Option (Octets mode.n)) : Hashed mode.n (Octets mode.n × List (Octets mode.n)) := do
  let c ← match c with
    | some c => pure c
    | none => mode.hash.ask (.randomizer key.id leaf.index key.seed)
  let starts ← mode.oneTime.startsHashed key.id leaf.index key.seed
  let y ← mode.oneTime.signHashed key.id leaf.index starts msg c
  return (c, y)

theorem Tree.computes_valueAt (id : Identifier) (seed : Octets mode.n) (tree : Tree mode) (r : UInt32) :
    (tree.valueAtHashed id seed r).Computes mode.oneTime.parameters (tree.valueAt id seed r) := by
  rw [valueAtHashed, valueAt]
  split
  · have starts := mode.oneTime.computes_starts id (r - mode.leaves) seed
    have value := (OneTime.PrivateKey.derive (r - mode.leaves) id seed).computes_publicValue
    exact starts.bind (value.bind (mode.hash.computes_ask trivial))
  · exact mode.hash.computes_ask trivial

theorem Tree.computes_generate (mode : Mode) (id : Identifier) (seed : Octets mode.n) :
    (generateHashed mode id seed).Computes mode.oneTime.parameters (generate mode id seed) :=
  .foldlM fun tree r _ => (tree.computes_valueAt id seed r).bind (.pure _)

theorem Mode.computes_climb (id : Identifier) (r : UInt32) (value : Octets mode.n)
    (path : List (Octets mode.n)) : (mode.climbHashed id r value path).Computes
      mode.oneTime.parameters (mode.climb id r value path) := by
  induction path generalizing r value with
  | nil => exact .pure value
  | cons sibling path ih =>
    rw [climbHashed, climb]
    split <;> exact .bind (mode.hash.computes_ask trivial) (ih (r / 2) _)

theorem PrivateKey.computes_signLeaf (key : PrivateKey mode) (tree : Tree mode) (leaf : Leaf mode)
    (msg : Bytes) (c : Option (Octets mode.n)) :
    (key.signLeafHashed leaf msg c).Computes mode.oneTime.parameters
      ((key.signLeaf tree leaf msg c).oneTime.c, (key.signLeaf tree leaf msg c).oneTime.y) := by
  have starts := mode.oneTime.computes_starts key.id leaf.index key.seed
  have y := (OneTime.PrivateKey.derive leaf.index key.id key.seed :
    OneTime.PrivateKey mode.oneTime).computes_sign msg (c.getD (key.randomizer leaf))
  cases c with
  | some c => exact (Hashed.Computes.pure c).bind (starts.bind (y.bind (.pure _)))
  | none =>
    have c : (Request.randomizer key.id leaf.index key.seed).InRange mode.oneTime.parameters := trivial
    exact (mode.hash.computes_ask c).bind (starts.bind (y.bind (.pure _)))

theorem Signature.computes_recover (s : Signature mode) (id : Identifier) (msg : Bytes) :
    (s.recoverHashed id msg).Computes mode.oneTime.parameters (s.recover id msg) :=
  .bind (s.oneTime.computes_recover id s.leaf.index msg)
    (.bind (mode.hash.computes_ask trivial) (Mode.computes_climb _ _ _ s.path))

theorem PublicKey.computes_check (key : PublicKey mode) (msg : Bytes) (s : Signature mode) :
    (key.checkHashed msg s).Computes mode.oneTime.parameters (key.check msg s) :=
  .bind (s.computes_recover key.id msg) (.pure _)

/-- Nothing out of range is asked for by many-time keys and signatures. A signature's
path is read off the tree, and the rest of it is computed. -/
structure Mode.AsksInRange (mode : Mode) : Prop where
  generate : ∀ id seed, (Tree.generateHashed mode id seed).Computes mode.oneTime.parameters
    (Tree.generate mode id seed)
  signLeaf : ∀ (key : PrivateKey mode) tree leaf msg c,
    (key.signLeafHashed leaf msg c).Computes mode.oneTime.parameters
      ((key.signLeaf tree leaf msg c).oneTime.c, (key.signLeaf tree leaf msg c).oneTime.y)
  check : ∀ (key : PublicKey mode) msg s, (key.checkHashed msg s).Computes mode.oneTime.parameters
    (key.check msg s)

theorem Mode.asksInRange (mode : Mode) : mode.AsksInRange where
  generate := Tree.computes_generate mode
  signLeaf := PrivateKey.computes_signLeaf
  check := PublicKey.computes_check

end ManyTime

end HashSig
