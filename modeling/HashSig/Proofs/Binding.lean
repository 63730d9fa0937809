import HashSig.Proofs.Checksum
import HashSig.Proofs.Trace

/-! What follows from two signatures that recover the same key.

Unless the two recoveries hash different strings to one hash, equal hashes come of
equal inputs. So the chain ends are the same, and two walks that meet were together
from where the second begins (`Mode.walk_eq_of_finish_eq`). Either the messages, the
randomizers and the chain values are the same, or the message hashes differ, and
then each signature has a chain on which it lies behind the other.
-/

set_option autoImplicit false

namespace HashSig

namespace HashFunction

variable (hash : HashFunction)

/-- Of two lists of inputs each has one whose bytes differ from the other's and whose
hash does not. -/
def Collide (first second : List (HashInput hash.size.octets)) : Prop :=
  ∃ a ∈ first.map HashInput.encode, ∃ b ∈ second.map HashInput.encode,
    a ≠ b ∧ hash.digest a = hash.digest b

variable {hash} {first second : List (HashInput hash.size.octets)}

theorem Collide.symm (collide : hash.Collide first second) : hash.Collide second first := by
  obtain ⟨a, inFirst, b, inSecond, different, same⟩ := collide
  exact ⟨b, inSecond, a, inFirst, different.symm, same.symm⟩

theorem encode_eq_of_apply_eq (free : ¬ hash.Collide first second)
    {a b : HashInput hash.size.octets} (inFirst : a ∈ first) (inSecond : b ∈ second)
    (same : hash.apply a = hash.apply b) : a.encode = b.encode := by
  by_contra different
  exact free ⟨_, List.mem_map_of_mem inFirst, _, List.mem_map_of_mem inSecond, different, same⟩

end HashFunction

namespace HashInput

variable {n : Nat} {id : Identifier} {q : UInt32}

theorem value_eq_of_encode_chainStep {i : UInt16} {j : UInt8} {v w : Octets n}
    (same : (chainStep id q i j v).encode = (chainStep id q i j w).encode) : v = w := by
  simp only [encode, List.append_cancel_left_eq, List.cons.injEq, true_and] at same
  exact Octets.ext same

theorem message_eq_of_encode_message {c d : Octets n} {msg other : Bytes}
    (same : (message id q c msg).encode = (message id q d other).encode) : c = d ∧ msg = other := by
  simp only [encode, List.append_cancel_left_eq] at same
  obtain ⟨randomizers, messages⟩ := List.append_inj same (by rw [c.length_eq, d.length_eq])
  exact ⟨Octets.ext randomizers, messages⟩

theorem ends_eq_of_encode_publicValue {ends others : List (Octets n)}
    (number : ends.length = others.length)
    (same : (publicValue id q ends).encode = (publicValue id q others).encode) : ends = others := by
  simp only [encode, List.append_cancel_left_eq] at same
  have fits : ends.length * n ≤ (Octets.join ends).length := Nat.le_of_eq (Octets.length_join ends).symm
  exact (Octets.pieces_join rfl rfl fits).symm.trans (Octets.pieces_join same number.symm fits)

end HashInput

namespace OneTime

variable {mode : Mode} {id : Identifier} {q : UInt32}

namespace Mode

variable {first second : List (HashInput mode.n)} {i : Nat} {v w : Octets mode.n}

-- Walks of the same steps that meet were together all the way.
theorem eq_of_walk_eq (free : ¬ mode.hash.Collide first second) {start steps : Nat}
    (inFirst : (mode.walkHashed id q i start steps v).inputs ⊆ first)
    (inSecond : (mode.walkHashed id q i start steps w).inputs ⊆ second)
    (same : mode.walk id q i start steps v = mode.walk id q i start steps w) : v = w := by
  induction steps generalizing start v w with
  | zero => exact same
  | succ steps ih =>
    have next := ih (fun _ later => inFirst (List.mem_cons_of_mem _ later))
      (fun _ later => inSecond (List.mem_cons_of_mem _ later)) same
    have encoded := HashFunction.encode_eq_of_apply_eq free (inFirst List.mem_cons_self)
      (inSecond List.mem_cons_self) next
    exact HashInput.value_eq_of_encode_chainStep encoded

theorem walk_eq_of_finish_eq (free : ¬ mode.hash.Collide first second) {a b : UInt8}
    (behind : a ≤ b) (bound : b.toNat ≤ mode.width.maxDigit)
    (inFirst : (mode.walkHashed id q i a.toNat (mode.width.maxDigit - a.toNat) v).inputs ⊆ first)
    (inSecond : (mode.walkHashed id q i b.toNat (mode.width.maxDigit - b.toNat) w).inputs ⊆ second)
    (same : mode.finish id q i a v = mode.finish id q i b w) :
    mode.walk id q i a.toNat (b.toNat - a.toNat) v = w := by
  have order := UInt8.le_iff_toNat_le.1 behind
  have steps : mode.width.maxDigit - a.toNat =
      (b.toNat - a.toNat) + (mode.width.maxDigit - b.toNat) := by omega
  have reached : a.toNat + (b.toNat - a.toNat) = b.toNat := Nat.add_sub_cancel' order
  rw [steps, mode.inputs_walkHashed_add, reached] at inFirst
  rw [finish, finish, steps, mode.walk_add, reached] at same
  exact eq_of_walk_eq free (fun _ later => inFirst (List.mem_append_right _ later)) inSecond same

end Mode

namespace Signature

def digit (s : Signature mode) (id : Identifier) (q : UInt32) (msg : Bytes) (i : Fin mode.chains) :
    UInt8 :=
  (mode.messageDigits id q s.c msg).get (i.cast (mode.length_messageDigits id q s.c msg).symm)

def valueOn (s : Signature mode) (i : Fin mode.chains) : Octets mode.n :=
  s.y.get (i.cast s.y_length.symm)

/-- On some chain the signature `t` of `other` lies behind `s`, and walking the steps
between the two digits leads from its value to that of `s`. -/
def Inverts (s t : Signature mode) (id : Identifier) (q : UInt32) (msg other : Bytes) : Prop :=
  ∃ i : Fin mode.chains, t.digit id q other i < s.digit id q msg i ∧
    mode.walk id q i (t.digit id q other i).toNat
      ((s.digit id q msg i).toNat - (t.digit id q other i).toNat) (t.valueOn i) = s.valueOn i

variable {s t : Signature mode} {msg other : Bytes}

theorem length_ends (s : Signature mode) (msg : Bytes) : (s.ends id q msg).length = mode.chains := by
  rw [ends, List.length_mapIdx, List.length_zip, mode.length_messageDigits, s.y_length, Nat.min_self]

theorem get_ends (s : Signature mode) (msg : Bytes) (i : Fin mode.chains) :
    (s.ends id q msg).get (i.cast (s.length_ends msg).symm) =
      mode.finish id q i (s.digit id q msg i) (s.valueOn i) := by
  simp only [ends, List.get_eq_getElem, List.getElem_mapIdx, List.getElem_zip]
  rfl

theorem digit_le_maxDigit (s : Signature mode) (msg : Bytes) (i : Fin mode.chains) :
    (s.digit id q msg i).toNat ≤ mode.width.maxDigit :=
  mode.le_maxDigit_of_mem_messageDigits id q (List.get_mem _ _)

theorem message_mem_inputs (s : Signature mode) (msg : Bytes) :
    .message id q s.c msg ∈ (s.recoverHashed id q msg).inputs := by
  rw [inputs_recoverHashed]
  exact List.mem_cons_self

theorem publicValue_mem_inputs (s : Signature mode) (msg : Bytes) :
    .publicValue id q (s.ends id q msg) ∈ (s.recoverHashed id q msg).inputs := by
  rw [inputs_recoverHashed]
  exact List.mem_cons_of_mem _ (List.mem_append_right _ List.mem_cons_self)

-- What is hashed on the way along chain `i` is part of what the recovery hashes.
theorem inputs_subset (s : Signature mode) (msg : Bytes) (i : Fin mode.chains) :
    (mode.walkHashed id q i (s.digit id q msg i).toNat
      (mode.width.maxDigit - (s.digit id q msg i).toNat) (s.valueOn i)).inputs ⊆
        (s.recoverHashed id q msg).inputs := by
  intro input member
  rw [inputs_recoverHashed, endsHashed, Hashed.inputs_all]
  refine List.mem_cons_of_mem _ (List.mem_append_left _ (List.mem_flatMap.2 ⟨_, ?_, member⟩))
  have inRange : i.1 < ((mode.messageDigits id q s.c msg).zip s.y).length := by
    rw [List.length_zip, mode.length_messageDigits, s.y_length, Nat.min_self]
    exact i.2
  refine List.mem_mapIdx.2 ⟨i, inRange, ?_⟩
  simp only [List.getElem_zip]
  rfl

-- Two signatures with the same ends: where one lies behind the other, it leads to
-- it.
theorem walk_eq_of_ends_eq
    (free : ¬ mode.hash.Collide (s.recoverHashed id q msg).inputs (t.recoverHashed id q other).inputs)
    (ends : s.ends id q msg = t.ends id q other) {i : Fin mode.chains}
    (behind : s.digit id q msg i ≤ t.digit id q other i) :
    mode.walk id q i (s.digit id q msg i).toNat
      ((t.digit id q other i).toNat - (s.digit id q msg i).toNat) (s.valueOn i) = t.valueOn i := by
  refine Mode.walk_eq_of_finish_eq free behind (t.digit_le_maxDigit other i) (s.inputs_subset msg i)
    (t.inputs_subset other i) ?_
  rw [← get_ends, ← get_ends]
  simp only [List.get_eq_getElem, ends, Fin.val_cast]

theorem valueOn_ext (same : ∀ i, s.valueOn i = t.valueOn i) : s.y = t.y := by
  refine List.ext_getElem (s.y_length.trans t.y_length.symm) ?_
  intro i inFirst _
  exact same ⟨i, s.y_length ▸ inFirst⟩

end Signature

theorem Signature.inverts_of_ends_eq {s t : Signature mode} {msg other : Bytes}
    (free : ¬ mode.hash.Collide (t.recoverHashed id q other).inputs (s.recoverHashed id q msg).inputs)
    (ends : t.ends id q other = s.ends id q msg)
    (hashes : mode.hash.apply (.message id q s.c msg) ≠ mode.hash.apply (.message id q t.c other)) :
    s.Inverts t id q msg other := by
  obtain ⟨i, inRange, inOther, less⟩ := mode.parameters.exists_expand_lt hashes
  have chain : i < mode.chains := by rwa [ParameterSet.length_expand] at inRange
  refine ⟨⟨i, chain⟩, less, ?_⟩
  exact walk_eq_of_ends_eq free ends (UInt8.le_of_lt less)

/-- If two signatures recover the same key for their messages, they are the same, or
the two recoveries hash different strings to one hash, or each inverts steps of a
chain that the other has walked. -/
theorem recover_binds {s t : Signature mode} {msg other : Bytes}
    (same : (s.recover id q msg).k = (t.recover id q other).k) :
    (msg = other ∧ s.c = t.c ∧ s.y = t.y) ∨
      mode.hash.Collide (s.recoverHashed id q msg).inputs (t.recoverHashed id q other).inputs ∨
      (s.Inverts t id q msg other ∧ t.Inverts s id q other msg) := by
  by_cases free : mode.hash.Collide (s.recoverHashed id q msg).inputs (t.recoverHashed id q other).inputs
  · exact .inr (.inl free)
  have lengths : (s.ends id q msg).length = (t.ends id q other).length := by
    rw [s.length_ends, t.length_ends]
  have ends := HashInput.ends_eq_of_encode_publicValue lengths
    (HashFunction.encode_eq_of_apply_eq free (s.publicValue_mem_inputs msg)
      (t.publicValue_mem_inputs other) same)
  by_cases hashes : mode.hash.apply (.message id q s.c msg) = mode.hash.apply (.message id q t.c other)
  · -- The same message and randomizer give the same digits, and walks of no steps.
    have encoded := HashFunction.encode_eq_of_apply_eq free (s.message_mem_inputs msg)
      (t.message_mem_inputs other) hashes
    obtain ⟨randomizers, messages⟩ := HashInput.message_eq_of_encode_message encoded
    refine .inl ⟨messages, randomizers, Signature.valueOn_ext fun i => ?_⟩
    have digits : s.digit id q msg i = t.digit id q other i := by
      subst messages
      simp only [Signature.digit, List.get_eq_getElem, Fin.val_cast, randomizers]
    have walked := Signature.walk_eq_of_ends_eq free ends (UInt8.le_of_eq digits)
    rw [digits, Nat.sub_self] at walked
    exact walked
  · refine .inr (.inr ⟨?_, ?_⟩)
    · exact Signature.inverts_of_ends_eq (fun collide => free collide.symm) ends.symm hashes
    · exact Signature.inverts_of_ends_eq free ends (Ne.symm hashes)

/-- A mode whose hash tells no inputs apart. -/
def flatMode : Mode := ⟨1, ⟨.n32, fun _ => Octets.zero 32⟩, .w8⟩

theorem recover_binds_flat :
    let s : Signature flatMode := ⟨Octets.zero 32, List.replicate 34 (Octets.zero 32), rfl⟩
    let first := s.recoverHashed (Octets.zero 16) 5 [0]
    let second := s.recoverHashed (Octets.zero 16) 5 [1]
    (s.recover (Octets.zero 16) 5 [0]).k = (s.recover (Octets.zero 16) 5 [1]).k ∧
      (([0] : Bytes) = [1] ∧ s.c = s.c ∧ s.y = s.y ∨
        flatMode.hash.Collide first.inputs second.inputs ∨
        s.Inverts s (Octets.zero 16) 5 [0] [1] ∧ s.Inverts s (Octets.zero 16) 5 [1] [0]) := by
  intro s first second
  have same : (s.recover (Octets.zero 16) 5 [0]).k = (s.recover (Octets.zero 16) 5 [1]).k := rfl
  exact ⟨same, recover_binds same⟩

end OneTime

end HashSig
