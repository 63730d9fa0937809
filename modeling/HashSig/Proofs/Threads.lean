import HashSig.ManyTime.SharedKey
import Mathlib.Logic.Function.Basic

/-! Many threads at one shared key.

A call to sign is not done in one step. Its randomizer is looked at, then a leaf
is reserved, then the signature is made; between two steps of a thread the others
may take any number of theirs. Reserving is one indivisible update of the counter,
or a loop that loads the counter, computes the next value, and stores it if the
counter has not moved meanwhile; the store may also fail for no reason and is then
tried again with the counter as it is. What a step logs is no part of it, but can be
read off from it (`Thread.logged`).

A step settles a call if the call's answer is certain from then on. The calls of a
run are listed in the order in which they are settled, so a call that returned
before another began stands before it.
-/

set_option autoImplicit false

namespace HashSig.ManyTime

variable {mode : Mode}

structure Call where
  msg : Bytes
  randomizer : Option Bytes

abbrev Result (mode : Mode) := Except Error (Signature mode)

/-- How far a thread is with its first call. -/
inductive Progress (mode : Mode) where
  | idle
  | checked (c : Option (Octets mode.n))
  | loaded (c : Option (Octets mode.n)) (seen : UInt32)
  | reserved (c : Option (Octets mode.n)) (leaf : Leaf mode)

structure Thread (mode : Mode) where
  calls : List Call
  progress : Progress mode
  results : List (Result mode)

/-- A step of a thread, the call that it settles if it settles one, and what becomes
of the key and the thread. -/
inductive Thread.Step :
    SharedKey mode → Thread mode → Option Call → SharedKey mode → Thread mode → Prop where
  | reject {key : SharedKey mode} {call : Call} {calls : List Call} {results : List (Result mode)}
      {e : Error}
      (read : mode.readRandomizer call.randomizer = .error e) :
      Step key ⟨call :: calls, .idle, results⟩ (some call) key ⟨calls, .idle, results ++ [.error e]⟩
  | accept {key : SharedKey mode} {call : Call} {calls : List Call} {results : List (Result mode)}
      {c : Option (Octets mode.n)}
      (read : mode.readRandomizer call.randomizer = .ok c) :
      Step key ⟨call :: calls, .idle, results⟩ none key ⟨call :: calls, .checked c, results⟩
  /-- The indivisible update succeeds. -/
  | update {key after : SharedKey mode} {call : Call} {calls : List Call}
      {results : List (Result mode)} {c : Option (Octets mode.n)} {leaf : Leaf mode}
      (reserved : key.reserve.value = (.ok leaf, after)) :
      Step key ⟨call :: calls, .checked c, results⟩ (some call)
        after ⟨call :: calls, .reserved c leaf, results⟩
  | refuse {key after : SharedKey mode} {call : Call} {calls : List Call}
      {results : List (Result mode)} {c : Option (Octets mode.n)} {e : Error}
      (refused : key.reserve.value = (.error e, after)) :
      Step key ⟨call :: calls, .checked c, results⟩ (some call)
        after ⟨calls, .idle, results ++ [.error e]⟩
  | load {key : SharedKey mode} {calls : List Call} {results : List (Result mode)}
      {c : Option (Octets mode.n)} :
      Step key ⟨calls, .checked c, results⟩ none key ⟨calls, .loaded c key.q, results⟩
  /-- The counter has not moved, and the next value is stored. -/
  | exchange {key : SharedKey mode} {call : Call} {calls : List Call} {results : List (Result mode)}
      {c : Option (Octets mode.n)} {seen : UInt32} (unused : seen < mode.leaves) (unmoved : key.q = seen) :
      Step key ⟨call :: calls, .loaded c seen, results⟩ (some call)
        { key with q := seen + 1 } ⟨call :: calls, .reserved c ⟨seen, unused⟩, results⟩
  /-- The counter has moved, or the store fails although it has not. -/
  | retry {key : SharedKey mode} {calls : List Call} {results : List (Result mode)}
      {c : Option (Octets mode.n)} {seen : UInt32} (unused : seen < mode.leaves) :
      Step key ⟨calls, .loaded c seen, results⟩ none key ⟨calls, .loaded c key.q, results⟩
  /-- No leaf was left when the counter was seen. -/
  | giveUp {key : SharedKey mode} {call : Call} {calls : List Call} {results : List (Result mode)}
      {c : Option (Octets mode.n)} {seen : UInt32} (used : ¬ seen < mode.leaves) :
      Step key ⟨call :: calls, .loaded c seen, results⟩ (some call)
        key ⟨calls, .idle, results ++ [.error .keyExhausted]⟩
  | sign {key : SharedKey mode} {call : Call} {calls : List Call} {results : List (Result mode)}
      {c : Option (Octets mode.n)} {leaf : Leaf mode} :
      Step key ⟨call :: calls, .reserved c leaf, results⟩ none key
        ⟨calls, .idle, results ++ [.ok (key.signLeaf key.tree leaf call.msg c)]⟩

structure System (mode : Mode) (count : Nat) where
  key : SharedKey mode
  threads : Fin count → Thread mode

namespace System

variable {count : Nat}

def start (key : SharedKey mode) (calls : Fin count → List Call) : System mode count :=
  ⟨key, fun i => ⟨calls i, .idle, []⟩⟩

/-- Every call has returned. -/
def Complete (sys : System mode count) : Prop :=
  ∀ i, (sys.threads i).calls = [] ∧ (sys.threads i).progress = .idle

def advance (sys : System mode count) (i : Fin count) (key : SharedKey mode) (thread : Thread mode) :
    System mode count :=
  ⟨key, Function.update sys.threads i thread⟩

theorem threads_advance_self (sys : System mode count) (i : Fin count) (key : SharedKey mode)
    (thread : Thread mode) : (sys.advance i key thread).threads i = thread := by
  simp only [advance, Function.update_self]

theorem threads_advance_of_ne (sys : System mode count) {i j : Fin count} (other : j ≠ i)
    (key : SharedKey mode) (thread : Thread mode) :
    (sys.advance i key thread).threads j = sys.threads j := by
  simp only [advance, Function.update_of_ne other]

/-- Any number of steps of any threads, and the calls that they settle. -/
inductive Steps (first : System mode count) :
    List (Fin count × Call) → System mode count → Prop where
  | none : Steps first [] first
  | step {order : List (Fin count × Call)} {sys : System mode count} {i : Fin count}
      {settled : Option Call} {key : SharedKey mode} {thread : Thread mode}
      (before : Steps first order sys)
      (taken : Thread.Step sys.key (sys.threads i) settled key thread) :
      Steps first (order ++ settled.toList.map (i, ·)) (sys.advance i key thread)

theorem advance_advance (sys : System mode count) (i : Fin count) (key later : SharedKey mode)
    (thread next : Thread mode) :
    (sys.advance i key thread).advance i later next = sys.advance i later next := by
  simp only [advance, Function.update_idem]

variable {first sys : System mode count} {order : List (Fin count × Call)} {i : Fin count}
  {key after : SharedKey mode} {thread next : Thread mode} {settled : Option Call}

theorem Steps.take (before : Steps first order sys) (same : sys.threads i = thread)
    (taken : Thread.Step sys.key thread settled after next) :
    Steps first (order ++ settled.toList.map (i, ·)) (sys.advance i after next) := by
  subst same
  exact before.step taken

-- The thread that has just taken a step takes another.
theorem Steps.again (before : Steps first order (sys.advance i key thread))
    (taken : Thread.Step key thread settled after next) :
    Steps first (order ++ settled.toList.map (i, ·)) (sys.advance i after next) := by
  have steps := before.take (sys.threads_advance_self i key thread) taken
  rwa [advance_advance] at steps

/-- A call whose steps nothing comes between gives what signing with the key gives. -/
theorem Steps.sign (before : Steps first order sys) {call : Call} {calls : List Call}
    {results : List (Result mode)} (idle : sys.threads i = ⟨call :: calls, .idle, results⟩) :
    let signed := (sys.key.sign call.msg call.randomizer).value
    Steps first (order ++ [(i, call)])
      (sys.advance i signed.2 ⟨calls, .idle, results ++ [signed.1]⟩) := by
  unfold SharedKey.sign
  split
  · next e read => exact before.take idle (.reject read)
  · next c read =>
    have checked := before.take idle (.accept read)
    rw [Option.toList_none, List.map_nil, List.append_nil] at checked
    simp only [Logged.value_bind]
    split
    · next e refused =>
      have refusal : sys.key.reserve.value = (.error e, sys.key.reserve.value.2) := by rw [← refused]
      exact checked.again (.refuse refusal)
    · next leaf reserved =>
      have success : sys.key.reserve.value = (.ok leaf, sys.key.reserve.value.2) := by rw [← reserved]
      have holding := (checked.again (.update success)).again .sign
      rw [Option.toList_none, List.map_nil, List.append_nil] at holding
      exact holding

end System

end HashSig.ManyTime
