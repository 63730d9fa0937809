/-! Byte strings and the big-endian words in them.

A word is read back from where it was written (`uint32At?_append`), and the
bytes it was read from are its own (`ofUInt32_uint32At`), so words and their
four bytes stand for each other.
-/

set_option autoImplicit false

namespace HashSig

abbrev Bytes := List UInt8

namespace Bytes

def ofUInt16 (x : UInt16) : Bytes := [(x >>> 8).toUInt8, x.toUInt8]

/-- The four bytes of a word, the most significant first. -/
def ofUInt32 (x : UInt32) : Bytes :=
  [(x >>> 24).toUInt8, (x >>> 16).toUInt8, (x >>> 8).toUInt8, x.toUInt8]

@[inline] def word (a b c d : UInt8) : UInt32 :=
  (a.toUInt32 <<< 24) + (b.toUInt32 <<< 16) + (c.toUInt32 <<< 8) + d.toUInt32

def uint32At? (b : Bytes) (start : Nat) : Option UInt32 :=
  match b.drop start with
  | x :: y :: z :: w :: _ => some (word x y z w)
  | _ => none

def uint32At (b : Bytes) (start : Nat) (fits : start + 4 ≤ b.length) : UInt32 :=
  word b[start] b[start + 1] b[start + 2] b[start + 3]

@[simp] theorem length_ofUInt16 (x : UInt16) : (ofUInt16 x).length = 2 := rfl

@[simp] theorem length_ofUInt32 (x : UInt32) : (ofUInt32 x).length = 4 := rfl

theorem toNat_word (a b c d : UInt8) :
    (word a b c d).toNat = a.toNat * 16777216 + b.toNat * 65536 + c.toNat * 256 + d.toNat := by
  have ha := a.toNat_lt
  have hb := b.toNat_lt
  have hc := c.toNat_lt
  have hd := d.toNat_lt
  simp only [word, UInt32.toNat_add, UInt32.toNat_shiftLeft, UInt8.toNat_toUInt32,
    Nat.shiftLeft_eq, show (24 : UInt32).toNat % 32 = 24 from rfl,
    show (16 : UInt32).toNat % 32 = 16 from rfl, show (8 : UInt32).toNat % 32 = 8 from rfl]
  omega

theorem ofUInt32_word (a b c d : UInt8) : ofUInt32 (word a b c d) = [a, b, c, d] := by
  have ha := a.toNat_lt
  have hb := b.toNat_lt
  have hc := c.toNat_lt
  have hd := d.toNat_lt
  have digit (x : UInt32) (k : UInt32) (y : UInt8)
      (same : x.toNat / 2 ^ (k.toNat % 32) % 256 = y.toNat) : (x >>> k).toUInt8 = y := by
    apply UInt8.toNat_inj.1
    rw [UInt32.toNat_toUInt8, UInt32.toNat_shiftRight, Nat.shiftRight_eq_div_pow]
    exact same
  have last : (word a b c d).toUInt8 = d := by
    apply UInt8.toNat_inj.1
    rw [UInt32.toNat_toUInt8, toNat_word]
    omega
  rw [ofUInt32, digit _ 24 a, digit _ 16 b, digit _ 8 c, last]
  all_goals
    rw [toNat_word]
    simp only [show (24 : UInt32).toNat % 32 = 24 from rfl,
      show (16 : UInt32).toNat % 32 = 16 from rfl, show (8 : UInt32).toNat % 32 = 8 from rfl]
    omega

theorem word_ofUInt32 (x : UInt32) :
    word (x >>> 24).toUInt8 (x >>> 16).toUInt8 (x >>> 8).toUInt8 x.toUInt8 = x := by
  have hx := x.toNat_lt
  apply UInt32.toNat_inj.1
  rw [toNat_word]
  simp only [UInt32.toNat_toUInt8, UInt32.toNat_shiftRight, Nat.shiftRight_eq_div_pow,
    show (24 : UInt32).toNat % 32 = 24 from rfl,
    show (16 : UInt32).toNat % 32 = 16 from rfl, show (8 : UInt32).toNat % 32 = 8 from rfl]
  omega

theorem uint32At?_of_le {b : Bytes} {start : Nat} (fits : start + 4 ≤ b.length) :
    b.uint32At? start = some (b.uint32At start fits) := by
  have step (i : Nat) (h : i < b.length) : b.drop i = b[i] :: b.drop (i + 1) :=
    List.drop_eq_getElem_cons h
  rw [uint32At?, step start (by omega), step (start + 1) (by omega), step (start + 2) (by omega),
    step (start + 3) (by omega)]
  rfl

theorem uint32At?_eq_none_iff {b : Bytes} {start : Nat} :
    b.uint32At? start = none ↔ b.length < start + 4 := by
  constructor
  · intro missing
    apply Nat.lt_of_not_le
    intro fits
    rw [uint32At?_of_le fits] at missing
    cases missing
  · intro short
    have few : (b.drop start).length < 4 := by rw [List.length_drop]; omega
    rw [uint32At?]
    split
    · next same => rw [same] at few; simp at few; omega
    · rfl

-- Reads back a word from where it was written.
theorem uint32At?_append (before : Bytes) (x : UInt32) (rest : Bytes) :
    (before ++ (ofUInt32 x ++ rest)).uint32At? before.length = some x := by
  rw [uint32At?, List.drop_left]
  simp only [ofUInt32, List.cons_append, List.nil_append, word_ofUInt32]

-- The bytes from which a word was read.
theorem ofUInt32_uint32At (b : Bytes) (start : Nat) (fits : start + 4 ≤ b.length) :
    ofUInt32 (b.uint32At start fits) = (b.drop start).take 4 := by
  have step (i : Nat) (h : i < b.length) : b.drop i = b[i] :: b.drop (i + 1) :=
    List.drop_eq_getElem_cons h
  rw [uint32At, ofUInt32_word, step start (by omega), step (start + 1) (by omega),
    step (start + 2) (by omega), step (start + 3) (by omega)]
  rfl

theorem ofUInt16_injective {x y : UInt16} (same : ofUInt16 x = ofUInt16 y) : x = y := by
  simp only [ofUInt16, List.cons.injEq, and_true] at same
  obtain ⟨high, low⟩ := same
  have high := congrArg UInt8.toNat high
  have low := congrArg UInt8.toNat low
  simp only [UInt16.toNat_toUInt8, UInt16.toNat_shiftRight, Nat.shiftRight_eq_div_pow,
    show (8 : UInt16).toNat % 16 = 8 from rfl] at high low
  have hx := x.toNat_lt
  have hy := y.toNat_lt
  exact UInt16.toNat_inj.1 (by omega)

theorem ofUInt32_injective {x y : UInt32} (same : ofUInt32 x = ofUInt32 y) : x = y := by
  have read := uint32At?_append [] x []
  rw [same, uint32At?_append] at read
  exact (Option.some.inj read).symm

end Bytes

end HashSig
