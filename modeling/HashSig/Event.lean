import HashSig.Bytes

/-! What is logged.

Calls that can log something answer in `Logged`, which collects their events in
order. No event has a field that depends on a seed.
-/

set_option autoImplicit false

namespace HashSig

inductive Event where
  | generatingKey (manyTime oneTime : UInt32)
  | buildingTree (height : Nat) (typecode : UInt32)
  | loadedKey (q typecode : UInt32)
  | loadedKeyWithoutTree (q typecode : UInt32)
  | refusedExhausted (typecode : UInt32)
  /-- The last leaf was given out. -/
  | nowExhausted (typecode : UInt32)
  | mismatchedParameters (manyTime oneTime : UInt32)
  deriving DecidableEq, Repr

inductive Level where
  | debug
  | warn
  deriving DecidableEq, Repr

def Level.text : Level → String
  | .debug => "DEBUG"
  | .warn => "WARN"

namespace Event

def level : Event → Level
  | .refusedExhausted _ | .nowExhausted _ => .warn
  | _ => .debug

def message : Event → String
  | .generatingKey _ _ => "generating LMS key"
  | .buildingTree _ _ => "building LMS tree"
  | .loadedKey _ _ => "loaded LMS key"
  | .loadedKeyWithoutTree _ _ => "loaded LMS key without tree"
  | .refusedExhausted _ => "refusing to sign with an exhausted LMS key"
  | .nowExhausted _ => "LMS key is now exhausted"
  | .mismatchedParameters _ _ => "rejecting mismatched parameter sets"

def fields : Event → List (String × Nat)
  | .generatingKey manyTime oneTime | .mismatchedParameters manyTime oneTime =>
    [("lms", manyTime.toNat), ("lmots", oneTime.toNat)]
  | .buildingTree height typecode => [("height", height), ("typecode", typecode.toNat)]
  | .loadedKey q typecode | .loadedKeyWithoutTree q typecode =>
    [("q", q.toNat), ("lms", typecode.toNat)]
  | .refusedExhausted typecode | .nowExhausted typecode => [("lms", typecode.toNat)]

end Event

/-- An answer and the events logged on the way to it, in order. -/
structure Logged (α : Type) where
  value : α
  events : List Event

namespace Logged

variable {α β : Type}

instance : Monad Logged where
  pure a := ⟨a, []⟩
  bind x f := ⟨(f x.value).value, x.events ++ (f x.value).events⟩

def emit (event : Event) : Logged Unit := ⟨(), [event]⟩

def emitIf (condition : Bool) (event : Event) : Logged Unit :=
  ⟨(), if condition then [event] else []⟩

@[simp] theorem value_pure (a : α) : (pure a : Logged α).value = a := rfl

@[simp] theorem events_pure (a : α) : (pure a : Logged α).events = [] := rfl

@[simp] theorem value_bind (x : Logged α) (f : α → Logged β) :
    (x >>= f).value = (f x.value).value := rfl

@[simp] theorem events_bind (x : Logged α) (f : α → Logged β) :
    (x >>= f).events = x.events ++ (f x.value).events := rfl

@[simp] theorem value_emit (event : Event) : (emit event).value = () := rfl

@[simp] theorem events_emit (event : Event) : (emit event).events = [event] := rfl

@[simp] theorem value_emitIf (condition : Bool) (event : Event) :
    (emitIf condition event).value = () := rfl

@[simp] theorem events_emitIf (condition : Bool) (event : Event) :
    (emitIf condition event).events = if condition then [event] else [] := rfl

instance : LawfulMonad Logged := LawfulMonad.mk' Logged
  (fun x => congrArg (Logged.mk x.value) (List.append_nil x.events))
  (fun _ _ => rfl)
  (fun x f g => congrArg (Logged.mk _)
    (List.append_assoc x.events (f x.value).events (g (f x.value).value).events))

end Logged

end HashSig
