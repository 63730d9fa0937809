import HashSig.Proofs.PathBinding
import HashSig.Proofs.Requests

/-! Inputs for different purposes are different strings.

All inputs begin with an identifier, a word and two bytes. Those two bytes and the one
behind them tell the kind of input (`Request.kind_eq`), because no set has as many
chains as the names of the other kinds would need, and no chain has a step with the
number that stands where a secret is derived. Within a kind the widths of the fields
leave one way to read an input (`Request.eq_of_encode_eq`).
-/

set_option autoImplicit false

namespace HashSig

variable {n : Nat}

/-! ## Numbers of chains and steps -/

namespace OneTime

variable (s : ParameterSet) (w : Width) {i j k : Nat}

theorem ParameterSet.toNat_chain (chain : i < s.chains) : (UInt16.ofNat i).toNat = i :=
  UInt16.toNat_ofNat_of_lt' (Nat.lt_trans chain (Nat.lt_trans s.chains_lt (by decide)))

theorem ParameterSet.chain_injective (first : i < s.chains) (second : k < s.chains)
    (same : UInt16.ofNat i = UInt16.ofNat k) : i = k := by
  rw [← s.toNat_chain first, same, s.toNat_chain second]

theorem Width.toNat_step (step : j < w.maxDigit) : (UInt8.ofNat j).toNat = j :=
  UInt8.toNat_ofNat_of_lt' (Nat.lt_trans step w.maxDigit_lt)

theorem Width.step_injective (first : j < w.maxDigit) (second : k < w.maxDigit)
    (same : UInt8.ofNat j = UInt8.ofNat k) : j = k := by
  rw [← w.toNat_step first, same, w.toNat_step second]

theorem Width.step_ne_seedByte (step : j < w.maxDigit) : UInt8.ofNat j ≠ HashInput.seedByte := by
  intro same
  have number := w.toNat_step step
  rw [same] at number
  have bound := w.maxDigit_lt
  change 255 = j at number
  omega

end OneTime

/-! ## Kinds -/

namespace Request

inductive Kind where
  | chainStart
  | randomizer
  | chainStep
  | publicValue
  | message
  | leaf
  | interior
  deriving DecidableEq, Repr

def kind : Request n → Kind
  | .chainStart _ _ _ _ => .chainStart
  | .randomizer _ _ _ => .randomizer
  | .chainStep _ _ _ _ _ => .chainStep
  | .publicValue _ _ _ => .publicValue
  | .message _ _ _ _ => .message
  | .leaf _ _ _ => .leaf
  | .interior _ _ _ _ => .interior

def Kind.ofIndex (index : UInt16) (next : Option UInt8) : Kind :=
  if index.toNat < HashInput.publicValueTag.toNat then
    if next = some HashInput.seedByte then .chainStart else .chainStep
  else if index = HashInput.publicValueTag then .publicValue
  else if index = HashInput.messageTag then .message
  else if index = HashInput.leafTag then .leaf
  else if index = HashInput.interiorTag then .interior
  else .randomizer

variable {s : OneTime.ParameterSet} {a b : Request n}

theorem kind_eq (inRange : a.InRange s) :
    a.kind = Kind.ofIndex a.input.index a.input.body.head? := by
  cases a with
  | chainStart id q i seed =>
    have below : (UInt16.ofNat i).toNat < HashInput.publicValueTag.toNat := by
      rw [s.toNat_chain inRange]
      exact Nat.lt_trans inRange s.chains_lt
    exact (if_pos below).symm
  | chainStep id q i j value =>
    have below : (UInt16.ofNat i).toNat < HashInput.publicValueTag.toNat := by
      rw [s.toNat_chain inRange.1]
      exact Nat.lt_trans inRange.1 s.chains_lt
    have step : some (UInt8.ofNat j) ≠ some HashInput.seedByte := fun same =>
      s.width.step_ne_seedByte inRange.2 (Option.some.inj same)
    exact ((if_pos below).trans (if_neg step)).symm
  | _ => rfl

theorem eq_of_encode_eq (inRange : a.InRange s) (other : b.InRange s)
    (same : a.input.encode = b.input.encode) : a = b := by
  obtain ⟨owners, numbers, indices, bodies⟩ := HashInput.fields_eq_of_encode same
  have kinds : a.kind = b.kind := by rw [kind_eq inRange, kind_eq other, indices, bodies]
  -- The kinds are the same, so in each case one constructor is left for the other request.
  cases a with
  | chainStart id q i seed =>
    cases b with
    | chainStart id' q' i' seed' =>
      obtain rfl : i = i' := s.chain_injective inRange other indices
      rw [show id = id' from owners, show q = q' from numbers,
        show seed = seed' from Octets.ext (List.cons.inj bodies).2]
    | _ => cases kinds
  | randomizer id q seed =>
    cases b with
    | randomizer id' q' seed' =>
      rw [show id = id' from owners, show q = q' from numbers,
        show seed = seed' from Octets.ext (List.cons.inj bodies).2]
    | _ => cases kinds
  | chainStep id q i j value =>
    cases b with
    | chainStep id' q' i' j' value' =>
      obtain rfl : i = i' := s.chain_injective inRange.1 other.1 indices
      obtain rfl : j = j' := s.width.step_injective inRange.2 other.2 (List.cons.inj bodies).1
      rw [show id = id' from owners, show q = q' from numbers,
        show value = value' from Octets.ext (List.cons.inj bodies).2]
    | _ => cases kinds
  | publicValue id q ends =>
    cases b with
    | publicValue id' q' ends' =>
      obtain rfl : id = id' := owners
      obtain rfl : q = q' := numbers
      rw [HashInput.ends_eq_of_encode_publicValue (inRange.trans other.symm) same]
    | _ => cases kinds
  | message id q c msg =>
    cases b with
    | message id' q' c' msg' =>
      obtain rfl : id = id' := owners
      obtain rfl : q = q' := numbers
      obtain ⟨randomizers, messages⟩ := HashInput.message_eq_of_encode_message same
      rw [randomizers, messages]
    | _ => cases kinds
  | leaf id r key =>
    cases b with
    | leaf id' r' key' =>
      obtain rfl : id = id' := owners
      obtain rfl : r = r' := numbers
      rw [HashInput.key_eq_of_encode_leaf same]
    | _ => cases kinds
  | interior id r left right =>
    cases b with
    | interior id' r' left' right' =>
      obtain rfl : id = id' := owners
      obtain rfl : r = r' := numbers
      obtain ⟨lefts, rights⟩ := HashInput.children_eq_of_encode_interior same
      rw [lefts, rights]
    | _ => cases kinds

end Request

/-- Two requests in range for which the same string is hashed are of one kind and agree
in everything. Cutting the numbers of chains and steps to two bytes and one loses
nothing, and no step has the number that stands where a secret is derived. Whatever is
asked for when keys are made, messages are signed and signatures are verified is in
range. -/
theorem hash_inputs_separate :
    (∀ (s : OneTime.ParameterSet) (n : Nat) (a b : Request n), a.InRange s → b.InRange s →
      a.input.encode = b.input.encode → a = b) ∧
    (∀ (s : OneTime.ParameterSet) (i j : Nat), i < s.chains → j < s.width.maxDigit →
      (UInt16.ofNat i).toNat = i ∧ (UInt8.ofNat j).toNat = j ∧ UInt8.ofNat j ≠ HashInput.seedByte) ∧
    (∀ mode : OneTime.Mode, mode.AsksInRange) ∧
    ∀ mode : ManyTime.Mode, mode.AsksInRange := by
  refine ⟨fun s n a b => Request.eq_of_encode_eq, ?_, OneTime.Mode.asksInRange,
    ManyTime.Mode.asksInRange⟩
  intro s i j chain step
  exact ⟨s.toNat_chain chain, s.width.toNat_step step, s.width.step_ne_seedByte step⟩

/-- The last step of the last chain, and the secret start of that chain. -/
theorem hash_inputs_separate_lastStep :
    let s : OneTime.ParameterSet := ⟨.n24, .w8⟩
    let step : Request 24 := .chainStep (Octets.zero 16) 7 25 254 (Octets.zero 24)
    let again : Request 24 := .chainStep ⟨List.replicate 16 0, rfl⟩ 7 25 254 ⟨List.replicate 24 0, rfl⟩
    let start : Request 24 := .chainStart (Octets.zero 16) 7 25 (Octets.zero 24)
    step.InRange s ∧ again.InRange s ∧ start.InRange s ∧
      step.input.encode = again.input.encode ∧ step = again ∧
      step.input.encode ≠ start.input.encode ∧
      (UInt16.ofNat 25).toNat = 25 ∧ (UInt8.ofNat 254).toNat = 254 := by
  intro s step again start
  have stepInRange : step.InRange s := by decide
  have againInRange : again.InRange s := by decide
  have startInRange : start.InRange s := by decide
  obtain ⟨separate, cast, -, -⟩ := hash_inputs_separate
  have numbers := cast s 25 254 (by decide) (by decide)
  refine ⟨stepInRange, againInRange, startInRange, rfl,
    separate s 24 step again stepInRange againInRange rfl, ?_, numbers.1, numbers.2.1⟩
  exact fun same => nomatch separate s 24 step start stepInRange startInRange same

end HashSig
