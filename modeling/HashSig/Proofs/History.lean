import HashSig.Proofs.Caching

/-! The history of a key.

A run of operations is kept with what each call met, answered, logged and left behind
(`Key.moments`). The answers and the events of the run, and the key at its end, are
read off its moments.
-/

set_option autoImplicit false

namespace HashSig

namespace Logged

variable {α β : Type}

@[simp] theorem value_map (f : α → β) (x : Logged α) : (f <$> x).value = f x.value := rfl

@[simp] theorem events_map (f : α → β) (x : Logged α) : (f <$> x).events = x.events :=
  List.append_nil x.events

end Logged

namespace ManyTime

variable {mode : Mode}

/-- An operation on a key, with its answer, what was logged and the key afterwards. -/
structure Moment (mode : Mode) where
  before : Key mode
  op : Operation
  answer : Answer mode
  events : List Event
  after : Key mode

namespace Key

def moment (key : Key mode) (op : Operation) : Moment mode :=
  ⟨key, op, (key.perform op).value.1, (key.perform op).events, (key.perform op).value.2⟩

def moments : Key mode → List Operation → List (Moment mode)
  | _, [] => []
  | key, op :: ops => key.moment op :: moments (key.moment op).after ops

variable {key : Key mode} {op : Operation} {ops : List Operation} {m : Moment mode}

theorem answers_run (key : Key mode) (ops : List Operation) :
    (key.run ops).value.1 = (key.moments ops).map Moment.answer := by
  induction ops generalizing key with
  | nil => rfl
  | cons op ops ih => exact congrArg (List.cons _) (ih _)

theorem events_run (key : Key mode) (ops : List Operation) :
    (key.run ops).events = (key.moments ops).flatMap Moment.events := by
  induction ops generalizing key with
  | nil => rfl
  | cons op ops ih =>
    have rest := ih (key.perform op).value.2
    simp only [run, Logged.events_bind, Logged.events_pure, List.append_nil, rest]
    rfl

-- A key is sound in all its moments.
theorem Sound.of_mem_moments (sound : key.Sound) (member : m ∈ key.moments ops) :
    m.before.Sound ∧ m = m.before.moment m.op := by
  induction ops generalizing key with
  | nil => cases member
  | cons op ops ih =>
    rcases List.mem_cons.1 member with rfl | member
    · exact ⟨sound, rfl⟩
    · exact ih ((sound.perform_outcome op).sound sound) member

end Key

end ManyTime

end HashSig
