import HashSig.Proofs.CallLog
import HashSig.Proofs.Sharing

/-! What threads at a shared key log.

A thread logs how its attempt to reserve a leaf ended, and nothing else, so its log is
what the results of its calls say (`System.Heard.log_eq`). Each thread has a log of its
own here: between the attempt and the logging other threads may be faster, and nothing
is said about the order in which the logs come together.
-/

set_option autoImplicit false

namespace HashSig.ManyTime

variable {mode : Mode}

/-! ## One call -/

def Mode.reservationLog (mode : Mode) : Except Error (Leaf mode) → List Event
  | .ok leaf => if leaf.index + 1 = mode.leaves then [.nowExhausted mode.typecode] else []
  | .error _ => [.refusedExhausted mode.typecode]

theorem SharedKey.events_reserve (key : SharedKey mode) :
    key.reserve.events = mode.reservationLog key.reserve.value.1 := by
  by_cases unused : key.q < mode.leaves
  · simp only [reserve, dif_pos unused, Logged.events_bind, Logged.events_emitIf, Logged.events_pure,
      List.append_nil, decide_eq_true_iff]
    rfl
  · simp only [reserve, dif_neg unused]
    rfl

def callLog : Result mode → List Event
  | .ok s => mode.reservationLog (.ok s.leaf)
  | .error e => if e = .keyExhausted then [.refusedExhausted mode.typecode] else []

/-- What a thread logs for a step: if its attempt to reserve a leaf ended with the step,
how it ended. -/
def Thread.logged (before after : Thread mode) : List Event :=
  match before.progress, after.progress with
  | .checked _, .reserved _ leaf | .loaded _ _, .reserved _ leaf => mode.reservationLog (.ok leaf)
  | .checked _, .idle | .loaded _ _, .idle => mode.reservationLog (.error .keyExhausted)
  | _, _ => []

theorem callLog_of_refused {randomizer : Option Bytes} {e : Error}
    (read : mode.readRandomizer randomizer = .error e) : callLog (.error e : Result mode) = [] := by
  unfold Mode.readRandomizer at read
  split at read
  · cases read
  · split at read
    · cases read
    · cases read
      rfl

-- A call that is alone with the key logs the same.
theorem SharedKey.events_sign_eq (key : SharedKey mode) (msg : Bytes) (randomizer : Option Bytes) :
    (key.sign msg randomizer).events = callLog (key.sign msg randomizer).value.1 := by
  cases read : mode.readRandomizer randomizer with
  | error e =>
    rw [value_sign_of_refused read, callLog_of_refused read, sign, read]
    rfl
  | ok c =>
    by_cases unused : key.q < mode.leaves
    · simp only [sign, read, Logged.events_bind, events_reserve]
      simp only [reserve, dif_pos unused, Logged.value_bind, Logged.value_pure, Logged.events_pure, List.append_nil]
      rfl
    · rw [value_sign_of_exhausted read unused]
      simp only [sign, read, Logged.events_bind, events_reserve]
      simp only [reserve, dif_neg unused]
      rfl

/-! ## Threads -/

section

variable {first : PrivateKey mode} {calls : List Call} {own : List (Call × Result mode)}
  {key after : SharedKey mode} {thread next : Thread mode} {settled : Option Call}

-- The step that settles a call logs what the call's result says.
theorem Thread.Step.logged (step : Step key thread settled after next)
    (agrees : thread.Agrees first key.q calls own) :
    thread.logged next = settled.toList.flatMap fun call => callLog (key.serve call).1 := by
  cases step with
  | reject read =>
    rw [Option.toList_some, List.flatMap_singleton, PrivateKey.serve_of_refused read, callLog_of_refused read]
    rfl
  | accept | load | retry | sign => rfl
  | update reserved =>
    cases agrees with
    | checked _ read =>
      obtain ⟨unused, same, rfl⟩ | ⟨-, failed, -⟩ := SharedKey.reserve_cases reserved
      · cases same
        rw [Option.toList_some, List.flatMap_singleton, PrivateKey.serve_of_unused read unused]
        rfl
      · cases failed
  | refuse refused =>
    cases agrees with
    | checked _ read =>
      obtain ⟨_, succeeded, _⟩ | ⟨used, same, rfl⟩ := SharedKey.reserve_cases refused
      · cases succeeded
      · rw [Option.toList_some, List.flatMap_singleton, PrivateKey.serve_of_exhausted read used]
        rfl
  | exchange unused unmoved =>
    cases agrees with
    | loaded _ read =>
      subst unmoved
      rw [Option.toList_some, List.flatMap_singleton, PrivateKey.serve_of_unused read unused]
      rfl
  | giveUp used =>
    cases agrees with
    | loaded _ read behind =>
      have full : ¬ key.q < mode.leaves := fun unused => used (UInt32.lt_of_le_of_lt behind unused)
      rw [Option.toList_some, List.flatMap_singleton, PrivateKey.serve_of_exhausted read full]
      rfl

end

namespace System

variable {count : Nat}

/-- Any number of steps of any threads, the calls that they settle, and what each thread
logs. -/
inductive Heard (first : System mode count) :
    List (Fin count × Call) → (Fin count → List Event) → System mode count → Prop where
  | none : Heard first [] (fun _ => []) first
  | step {order : List (Fin count × Call)} {log : Fin count → List Event} {sys : System mode count}
      {i : Fin count} {settled : Option Call} {key : SharedKey mode} {thread : Thread mode}
      (before : Heard first order log sys)
      (taken : Thread.Step sys.key (sys.threads i) settled key thread) :
      Heard first (order ++ settled.toList.map (i, ·))
        (Function.update log i (log i ++ (sys.threads i).logged thread)) (sys.advance i key thread)

variable {start : SharedKey mode} {calls : Fin count → List Call} {order : List (Fin count × Call)}
  {log : Fin count → List Event} {last : System mode count}

theorem Heard.steps {first : System mode count} (heard : Heard first order log last) :
    Steps first order last := by
  induction heard with
  | none => exact .none
  | step _ taken ih => exact ih.step taken

-- No run is left out.
theorem Steps.heard {first : System mode count} (steps : Steps first order last) :
    ∃ log, Heard first order log last := by
  induction steps with
  | none => exact ⟨_, .none⟩
  | step _ taken ih =>
    obtain ⟨log, before⟩ := ih
    exact ⟨_, before.step taken⟩

theorem Heard.log_eq (sound : start.Sound) (heard : Heard (.start start calls) order log last)
    (i : Fin count) : log i = (share start.toPrivateKey order i).flatMap fun e => callLog e.2 := by
  induction heard with
  | none => rfl
  | @step order log sys j settled key thread before taken ih =>
    have agrees := before.steps.agrees sound
    rw [share_append agrees.served, List.flatMap_append, ← ih]
    by_cases same : j = i
    · subst same
      rw [Function.update_self, if_pos rfl, taken.logged (agrees.threads j), List.flatMap_map]
    · rw [Function.update_of_ne (Ne.symm same), if_neg same, List.flatMap_nil, List.append_nil]

end System

/-! ## All threads together -/

-- One refusal for each result that no leaf was left.
theorem count_refusedExhausted_callLog (results : List (Result mode)) :
    (results.flatMap callLog).count (.refusedExhausted mode.typecode) =
      results.count (.error .keyExhausted) := by
  induction results with
  | nil => rfl
  | cons result results ih =>
    rw [List.flatMap_cons, List.count_append, ih, List.count_cons, Nat.add_comm]
    congr 1
    cases result with
    | ok s =>
      simp only [callLog, Mode.reservationLog]
      split <;> rfl
    | error e => by_cases exhausted : e = .keyExhausted <;> simp [callLog, exhausted]

-- The last leaf is the only one whose signature is warned about.
theorem count_nowExhausted_callLog (results : List (Result mode)) :
    (results.flatMap callLog).count (.nowExhausted mode.typecode) =
      (leavesOf results).count (mode.leaves.toNat - 1) := by
  induction results with
  | nil => rfl
  | cons result results ih =>
    rw [List.flatMap_cons, List.count_append, ih]
    cases result with
    | ok s =>
      have inRange := UInt32.lt_iff_toNat_lt.1 s.leaf.index_lt
      have last : s.leaf.index + 1 = mode.leaves ↔ s.leaf.index.toNat = mode.leaves.toNat - 1 := by
        have bound := mode.leaves.toNat_lt
        rw [← UInt32.toNat_inj, UInt32.toNat_add, UInt32.toNat_one, Nat.mod_eq_of_lt (by omega)]
        omega
      rw [leavesOf_ok, List.count_cons, Nat.add_comm]
      congr 1
      simp only [callLog, Mode.reservationLog, last]
      split <;> simp [*]
    | error e =>
      rw [leavesOf_error, callLog]
      split <;> simp

-- The leaves that are handed out go up to the counter, so the last one is among them if
-- the counter comes to the end.
theorem PrivateKey.count_nowExhausted_serveAll {ι : Type} (key : PrivateKey mode)
    (inRange : key.q ≤ mode.leaves) (order : List (ι × Call)) :
    (((key.serveAll order).1.map fun e => e.2.2).flatMap callLog).count (.nowExhausted mode.typecode) =
      if key.q < mode.leaves ∧ (key.serveAll order).2.q = mode.leaves then 1 else 0 := by
  obtain ⟨leaves, -, counter⟩ := key.serveAll_leaves inRange order
  have positive : 0 < mode.leaves.toNat := mode.toNat_leaves ▸ Nat.two_pow_pos _
  rw [count_nowExhausted_callLog, leaves, List.Nodup.count List.nodup_range']
  refine if_congr ?_ rfl rfl
  rw [List.mem_range'_1, UInt32.lt_iff_toNat_lt, ← UInt32.toNat_inj, counter]
  omega

theorem not_mem_callLog_buildingTree (result : Result mode) :
    .buildingTree mode.height mode.typecode ∉ callLog result := by
  cases result with
  | ok s =>
    simp only [callLog, Mode.reservationLog]
    split <;> simp
  | error e =>
    rw [callLog]
    split <;> simp

/-- The threads' logs tell which calls were refused because no leaf was left, and that the
last leaf was handed out. -/
structure System.Truthful {count : Nat} (start : SharedKey mode) (log : Fin count → List Event)
    (last : System mode count) : Prop where
  own : ∀ i, log i = (last.threads i).results.flatMap callLog
  exhaustion : ((List.finRange count).flatMap log).count (.nowExhausted mode.typecode) =
    if start.q < mode.leaves ∧ last.key.q = mode.leaves then 1 else 0
  refusals : ((List.finRange count).flatMap log).count (.refusedExhausted mode.typecode) =
    ((List.finRange count).flatMap fun i => (last.threads i).results).count (.error .keyExhausted)
  builds : .buildingTree mode.height mode.typecode ∉ (List.finRange count).flatMap log

theorem System.Heard.truthful {count : Nat} {start : SharedKey mode} {calls : Fin count → List Call}
    {order : List (Fin count × Call)} {log : Fin count → List Event} {last : System mode count}
    (sound : start.Sound) (heard : Heard (.start start calls) order log last)
    (complete : last.Complete) : Truthful start log last := by
  have agrees := heard.steps.agrees sound
  have own (i : Fin count) : log i = (last.threads i).results.flatMap callLog := by
    rw [heard.log_eq sound, (agrees.of_complete complete i).2, List.flatMap_map]
  have all : (List.finRange count).flatMap log =
      ((List.finRange count).flatMap fun i => (last.threads i).results).flatMap callLog := by
    rw [List.flatMap_assoc]
    exact List.flatMap_congr fun i _ => own i
  refine ⟨own, ?_, ?_, ?_⟩
  · rw [all, ((agrees.perm_results complete).flatMap_right callLog).count_eq,
      start.count_nowExhausted_serveAll sound.inRange, agrees.served]
  · rw [all, count_refusedExhausted_callLog]
  · rw [all]
    intro built
    obtain ⟨result, -, member⟩ := List.mem_flatMap.1 built
    exact not_mem_callLog_buildingTree result member

end HashSig.ManyTime
