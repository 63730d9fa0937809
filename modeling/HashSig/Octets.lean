import HashSig.Bytes

/-! Byte strings of a known length.

Every format of this library is a concatenation of words and of fields whose
length is known beforehand; `Octets n` is such a field. A field is cut out of a
longer string by `slice` and `pieces`, which ask for a proof that the string is
long enough, so a decoder tests the length once and cannot fail afterwards.
-/

set_option autoImplicit false

namespace HashSig

structure Octets (n : Nat) where
  bytes : Bytes
  length_eq : bytes.length = n
  deriving DecidableEq, Repr

namespace Octets

variable {n : Nat}

attribute [simp] length_eq

@[ext] theorem ext {a b : Octets n} (same : a.bytes = b.bytes) : a = b := by
  cases a; cases b; cases same; rfl

def ofBytes? (n : Nat) (b : Bytes) : Option (Octets n) :=
  if h : b.length = n then some ⟨b, h⟩ else none

def zero (n : Nat) : Octets n := ⟨List.replicate n 0, List.length_replicate⟩

def slice (b : Bytes) (start n : Nat) (fits : start + n ≤ b.length) : Octets n :=
  ⟨(b.drop start).take n, by rw [List.length_take, List.length_drop]; omega⟩

def pieces (n : Nat) : (count : Nat) → (b : Bytes) → count * n ≤ b.length → List (Octets n)
  | 0, _, _ => []
  | count + 1, b, fits =>
    have whole : n ≤ b.length := Nat.le_trans (Nat.le_add_left n (count * n)) (Nat.succ_mul count n ▸ fits)
    have rest : count * n ≤ (b.drop n).length := by
      rw [List.length_drop]
      exact Nat.le_sub_of_add_le (Nat.succ_mul count n ▸ fits)
    ⟨b.take n, by rw [List.length_take, Nat.min_eq_left whole]⟩ :: pieces n count (b.drop n) rest

def join (fields : List (Octets n)) : Bytes := fields.flatMap bytes

@[simp] theorem ofBytes?_bytes (o : Octets n) : ofBytes? n o.bytes = some o := by
  simp [ofBytes?]

theorem bytes_of_ofBytes? {b : Bytes} {o : Octets n} (found : ofBytes? n b = some o) :
    o.bytes = b := by
  unfold ofBytes? at found
  split at found
  · cases found
    rfl
  · cases found

theorem ofBytes?_eq_none_iff {b : Bytes} : ofBytes? n b = none ↔ b.length ≠ n := by
  simp [ofBytes?]

theorem bytes_slice (b : Bytes) (start n : Nat) (fits : start + n ≤ b.length) :
    (slice b start n fits).bytes = (b.drop start).take n := rfl

-- A part that was cut out by its place is the field there.
theorem ofBytes?_take_drop {b : Bytes} {start : Nat} (fits : start + n ≤ b.length) :
    ofBytes? n ((b.drop start).take n) = some (slice b start n fits) :=
  ofBytes?_bytes (slice b start n fits)

theorem ofBytes?_drop {b : Bytes} {start : Nat} (exact : b.length = start + n) :
    ofBytes? n (b.drop start) = some (slice b start n (Nat.le_of_eq exact.symm)) := by
  have whole : (b.drop start).take n = b.drop start := by
    apply List.take_of_length_le
    exact Nat.le_of_eq (by rw [List.length_drop, exact, Nat.add_sub_cancel_left])
  rw [← whole, ofBytes?_take_drop]

@[simp] theorem join_cons (field : Octets n) (fields : List (Octets n)) :
    join (field :: fields) = field.bytes ++ join fields := rfl

@[simp] theorem length_pieces (count : Nat) (b : Bytes) (fits : count * n ≤ b.length) :
    (pieces n count b fits).length = count := by
  induction count generalizing b with
  | zero => rfl
  | succ count ih => simp [pieces, ih]

@[simp] theorem length_join (fields : List (Octets n)) :
    (join fields).length = fields.length * n := by
  induction fields with
  | nil => exact (Nat.zero_mul n).symm
  | cons field fields ih =>
    rw [join_cons, List.length_append, ih, field.length_eq, List.length_cons, Nat.succ_mul,
      Nat.add_comm]

-- Cutting fields out and writing them back gives the bytes they covered.
theorem join_pieces (count : Nat) (b : Bytes) (fits : count * n ≤ b.length) :
    join (pieces n count b fits) = b.take (count * n) := by
  induction count generalizing b with
  | zero => rw [Nat.zero_mul, List.take_zero]; rfl
  | succ count ih =>
    rw [pieces, join_cons, ih, Nat.succ_mul, Nat.add_comm (count * n) n, List.take_add]

-- Fields that were written are cut out again.
theorem pieces_join {fields : List (Octets n)} {count : Nat} {b : Bytes} (layout : b = join fields)
    (number : fields.length = count) (fits : count * n ≤ b.length) : pieces n count b fits = fields := by
  induction fields generalizing b count with
  | nil => subst number; rfl
  | cons field fields ih =>
    obtain ⟨count, rfl⟩ : ∃ less, count = less + 1 := ⟨fields.length, number.symm⟩
    have first : b.take n = field.bytes := by rw [layout, join_cons, List.take_left' field.length_eq]
    have others : b.drop n = join fields := by rw [layout, join_cons, List.drop_left' field.length_eq]
    rw [pieces, ih others (Nat.succ.inj number)]
    exact congrArg (· :: fields) (Octets.ext first)

end Octets

end HashSig
