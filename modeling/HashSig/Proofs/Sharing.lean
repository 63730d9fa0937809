import HashSig.Proofs.Linearization

/-! What the callers of a shared key get.

Of the calls that are served one after the other, those with an acceptable
randomizer get the leaves from the counter on, as long as there are any. Threads
that share a key get the same, each call its own signature
(`shared_calls_linearize`).
-/

set_option autoImplicit false

namespace HashSig.ManyTime

variable {mode : Mode} {ι : Type}

/-! ## One call after the other -/

/-- A call comes without a randomizer or with one as long as a hash. -/
def Call.acceptable (mode : Mode) (call : Call) : Bool :=
  call.randomizer.all fun c => c.length == mode.n

/-- The result answers the call, when `key` is the public key. -/
inductive Call.Answered (key : PublicKey mode) (call : Call) : Result mode → Prop where
  | signed {s : Signature mode} (acceptable : call.acceptable mode = true)
      (valid : key.check call.msg s = .ok ())
      (randomizer : ∀ c ∈ call.randomizer, s.oneTime.c.bytes = c) : Answered key call (.ok s)
  | exhausted (acceptable : call.acceptable mode = true) : Answered key call (.error .keyExhausted)
  | refused {c : Bytes} (supplied : call.randomizer = some c) (wrong : c.length ≠ mode.n) :
      Answered key call (.error (.invalidRandomizerLength mode.n c.length))

def leavesOf (results : List (Result mode)) : List Nat :=
  results.filterMap fun result => result.toOption.map fun s => s.leaf.index.toNat

@[simp] theorem leavesOf_error (e : Error) (results : List (Result mode)) :
    leavesOf (.error e :: results) = leavesOf results := rfl

@[simp] theorem leavesOf_ok (s : Signature mode) (results : List (Result mode)) :
    leavesOf (.ok s :: results) = s.leaf.index.toNat :: leavesOf results := rfl

theorem Call.read_of_acceptable {call : Call} (acceptable : call.acceptable mode = true) :
    ∃ c : Option (Octets mode.n), mode.readRandomizer call.randomizer = .ok c ∧
      call.randomizer = c.map Octets.bytes := by
  obtain ⟨msg, _ | c⟩ := call
  · exact ⟨none, rfl, rfl⟩
  · have length : c.length = mode.n := beq_iff_eq.1 acceptable
    have supplied : some c = (some (Octets.mk c length)).map Octets.bytes := rfl
    exact ⟨_, Mode.readRandomizer_eq_ok_iff.2 supplied, supplied⟩

theorem Call.read_of_not_acceptable {call : Call} (wrong : call.acceptable mode = false) :
    ∃ c, call.randomizer = some c ∧ c.length ≠ mode.n ∧
      mode.readRandomizer call.randomizer = .error (.invalidRandomizerLength mode.n c.length) := by
  obtain ⟨msg, _ | c⟩ := call
  · cases wrong
  · have length : c.length ≠ mode.n := beq_eq_false_iff_ne.1 wrong
    exact ⟨c, rfl, length, Mode.readRandomizer_of_wrong length⟩

namespace PrivateKey

variable {key : PrivateKey mode}

@[simp] theorem publicHalf_serve (call : Call) : (key.serve call).2.publicHalf = key.publicHalf := by
  unfold serve
  split
  · rfl
  · split <;> rfl

theorem serve_answered (call : Call) : call.Answered key.publicHalf (key.serve call).1 := by
  cases acceptable : call.acceptable mode with
  | false =>
    obtain ⟨c, supplied, wrong, read⟩ := Call.read_of_not_acceptable acceptable
    rw [serve_of_refused read]
    exact .refused supplied wrong
  | true =>
    obtain ⟨c, read, supplied⟩ := Call.read_of_acceptable acceptable
    by_cases unused : key.q < mode.leaves
    · rw [serve_of_unused read unused]
      refine .signed acceptable (key.check_signLeaf ⟨key.q, unused⟩ call.msg c) ?_
      intro bytes member
      rw [supplied] at member
      obtain ⟨c, rfl, rfl⟩ := Option.map_eq_some_iff.1 member
      rfl
    · rw [serve_of_exhausted read unused]
      exact .exhausted acceptable

theorem serveAll_answered (order : List (ι × Call)) :
    ∀ e ∈ (key.serveAll order).1, e.2.1.Answered key.publicHalf e.2.2 := by
  induction order generalizing key with
  | nil => exact nofun
  | cons first order ih =>
    intro e member
    rcases List.mem_cons.1 member with rfl | later
    · exact serve_answered first.2
    · rw [← publicHalf_serve first.2]
      exact ih e later

-- The acceptable calls get the leaves that are left, in order.
theorem serveAll_leaves (inRange : key.q ≤ mode.leaves) (order : List (ι × Call)) :
    let results := (key.serveAll order).1.map fun e => e.2.2
    let granted := min (order.countP fun e => e.2.acceptable mode) (mode.leaves.toNat - key.q.toNat)
    leavesOf results = List.range' key.q.toNat granted ∧
      results.count (.error .keyExhausted) + granted = order.countP (fun e => e.2.acceptable mode) ∧
      (key.serveAll order).2.q.toNat = key.q.toNat + granted := by
  induction order generalizing key with
  | nil => simp [serveAll, leavesOf]
  | cons first order ih =>
    obtain ⟨i, call⟩ := first
    cases acceptable : call.acceptable mode with
    | false =>
      obtain ⟨c, -, -, read⟩ := Call.read_of_not_acceptable acceptable
      simp only [serveAll, serve_of_refused read, List.map_cons, leavesOf_error,
        List.countP_cons, acceptable, List.count_cons]
      exact ih inRange
    | true =>
      obtain ⟨c, read, -⟩ := Call.read_of_acceptable acceptable
      by_cases unused : key.q < mode.leaves
      · have below := UInt32.lt_iff_toNat_lt.1 unused
        have rest := ih (next_le unused)
        rw [toNat_next unused] at rest
        simp only [serveAll, serve_of_unused read unused, List.map_cons, leavesOf_ok,
          List.countP_cons, acceptable, if_true]
        generalize order.countP (fun e => e.2.acceptable mode) = others at rest ⊢
        obtain ⟨leaves, exhausted, counter⟩ := rest
        -- The first call takes one leaf, and the others share the rest.
        have more : min (others + 1) (mode.leaves.toNat - key.q.toNat) =
            min others (mode.leaves.toNat - (key.q.toNat + 1)) + 1 := by omega
        have granted : (.ok (key.signNext unused call.msg c) : Result mode) ≠ .error .keyExhausted :=
          fun same => by cases same
        rw [more, List.range'_succ, leaves, List.count_cons_of_ne granted]
        exact ⟨rfl, by omega, by omega⟩
      · have full := Nat.le_of_not_lt fun less => unused (UInt32.lt_iff_toNat_lt.2 less)
        have rest := ih inRange
        simp only [serveAll, serve_of_exhausted read unused, List.map_cons, leavesOf_error,
          List.countP_cons, acceptable, if_true]
        generalize order.countP (fun e => e.2.acceptable mode) = others at rest ⊢
        have none : mode.leaves.toNat - key.q.toNat = 0 := Nat.sub_eq_zero_of_le full
        rw [none, Nat.min_zero] at rest ⊢
        obtain ⟨leaves, exhausted, counter⟩ := rest
        rw [List.count_cons_self]
        exact ⟨leaves, by omega, counter⟩

end PrivateKey

/-! ## Threads -/

theorem Thread.Agrees.of_idle {first : PrivateKey mode} {counter : UInt32} {calls : List Call}
    {own : List (Call × Result mode)} {thread : Thread mode}
    (agrees : thread.Agrees first counter calls own) (none : thread.calls = [])
    (idle : thread.progress = .idle) : calls = own.map Prod.fst ∧ thread.results = own.map Prod.snd := by
  cases agrees with
  | idle all =>
    cases none
    rw [List.append_nil] at all
    exact ⟨all, rfl⟩
  | checked | loaded | reserved => cases idle

-- Sorting the entries of a list by their marks loses none.
theorem perm_flatMap_filter {α : Type} [DecidableEq ι] {marks : List ι} (nodup : marks.Nodup)
    {entries : List (ι × α)} (marked : ∀ e ∈ entries, e.1 ∈ marks) :
    (marks.flatMap fun i => entries.filter fun e => e.1 = i).Perm entries := by
  induction marks generalizing entries with
  | nil =>
    rw [List.eq_nil_iff_forall_not_mem.2 fun e member => List.not_mem_nil (marked e member)]
    rfl
  | cons i marks ih =>
    obtain ⟨new, nodup⟩ := List.nodup_cons.1 nodup
    have others : ∀ e ∈ entries.filter (fun e => !decide (e.1 = i)), e.1 ∈ marks := by
      intro e member
      obtain ⟨member, other⟩ := List.mem_filter.1 member
      exact (List.mem_cons.1 (marked e member)).resolve_left (by simpa using other)
    have same : marks.flatMap (fun j => entries.filter fun e => e.1 = j) =
        marks.flatMap fun j => (entries.filter fun e => !decide (e.1 = i)).filter fun e => e.1 = j := by
      refine List.flatMap_congr fun j member => ?_
      rw [List.filter_filter]
      refine List.filter_congr fun e _ => ?_
      have apart : j ≠ i := fun same => new (same ▸ member)
      by_cases own : e.1 = j <;> simp [own, apart]
    rw [List.flatMap_cons, same]
    exact ((ih nodup others).append_left _).trans (List.filter_append_perm _ entries)

namespace System

variable {count : Nat} {first : PrivateKey mode} {calls : Fin count → List Call}
  {order : List (Fin count × Call)} {sys : System mode count}

theorem map_fst_share (i : Fin count) :
    (share first order i).map Prod.fst = (order.filter fun e => e.1 = i).map Prod.snd := by
  conv_rhs => rw [← first.map_serveAll order]
  rw [share, List.filter_map, List.map_map, List.map_map]
  rfl

theorem perm_share : ((List.finRange count).flatMap fun i => share first order i).Perm
    ((first.serveAll order).1.map Prod.snd) := by
  have marked : ∀ e ∈ (first.serveAll order).1, e.1 ∈ List.finRange count :=
    fun e _ => List.mem_finRange e.1
  have sorted := (perm_flatMap_filter (List.nodup_finRange count) marked).map Prod.snd
  rwa [List.map_flatMap] at sorted

-- Once every call has returned, each thread has exactly its share.
theorem Agrees.of_complete (agrees : sys.Agrees first calls order) (complete : sys.Complete)
    (i : Fin count) :
    calls i = (share first order i).map Prod.fst ∧
      (sys.threads i).results = (share first order i).map Prod.snd :=
  (agrees.threads i).of_idle (complete i).1 (complete i).2

theorem Agrees.perm_calls (agrees : sys.Agrees first calls order) (complete : sys.Complete) :
    ((List.finRange count).flatMap calls).Perm (order.map Prod.snd) := by
  have shares : calls = fun i => (share first order i).map Prod.fst :=
    funext fun i => (agrees.of_complete complete i).1
  have settled : order.map Prod.snd = ((first.serveAll order).1.map Prod.snd).map Prod.fst := by
    conv_lhs => rw [← first.map_serveAll order]
    rw [List.map_map, List.map_map]
    rfl
  rw [shares, settled, ← List.map_flatMap]
  exact perm_share.map Prod.fst

theorem Agrees.perm_results (agrees : sys.Agrees first calls order) (complete : sys.Complete) :
    ((List.finRange count).flatMap fun i => (sys.threads i).results).Perm
      ((first.serveAll order).1.map fun e => e.2.2) := by
  have shares : (fun i => (sys.threads i).results) = fun i => (share first order i).map Prod.snd :=
    funext fun i => (agrees.of_complete complete i).2
  have results : (first.serveAll order).1.map (fun e => e.2.2) =
      ((first.serveAll order).1.map Prod.snd).map Prod.snd := by
    rw [List.map_map]
    rfl
  rw [shares, results, ← List.map_flatMap]
  exact perm_share.map Prod.snd

theorem Agrees.answered (agrees : sys.Agrees first calls order) (complete : sys.Complete)
    (i : Fin count) :
    List.Forall₂ (Call.Answered first.publicHalf) (calls i) (sys.threads i).results := by
  obtain ⟨settled, results⟩ := agrees.of_complete complete i
  rw [settled, results, List.forall₂_map_left_iff, List.forall₂_map_right_iff, List.forall₂_same]
  intro e member
  obtain ⟨entry, own, rfl⟩ := List.mem_map.1 member
  exact PrivateKey.serveAll_answered order entry (List.mem_of_mem_filter own)

end System

/-- Threads that share a key get what one caller gets who makes the calls one after
the other, in the order in which they were settled. The leaves that are left go
to the acceptable calls, one each, and when there are none the other acceptable
calls are told so. -/
theorem shared_calls_linearize {start : PrivateKey mode} (inRange : start.q ≤ mode.leaves)
    {count : Nat} {calls : Fin count → List Call} {order : List (Fin count × Call)}
    {last : System mode count}
    (steps : System.Steps (.start ⟨start, start.merkleTree⟩ calls) order last)
    (complete : last.Complete) :
    (∀ i, (order.filter fun e => e.1 = i).map Prod.snd = calls i) ∧
    (∀ withTree : Bool,
      let key : SigningKey mode := ⟨start, if withTree then some start.merkleTree else none⟩
      (∀ i, (last.threads i).results =
        ((key.signEach order).1.filter fun e => e.1 = i).map fun e => e.2.2) ∧
      (key.signEach order).2.q = last.key.q) ∧
    (∀ i, List.Forall₂ (Call.Answered start.publicHalf) (calls i) (last.threads i).results) ∧
    let results := (List.finRange count).flatMap fun i => (last.threads i).results
    let accepted := ((List.finRange count).flatMap calls).countP (Call.acceptable mode)
    let granted := min accepted (mode.leaves.toNat - start.q.toNat)
    (leavesOf results).Perm (List.range' start.q.toNat granted) ∧
      results.count (.error .keyExhausted) + granted = accepted ∧
      last.key.q.toNat = start.q.toNat + granted := by
  have sound : (SharedKey.mk start start.merkleTree).Sound := ⟨inRange, rfl⟩
  have agrees := steps.agrees sound
  have shares := agrees.of_complete complete
  refine ⟨?_, ?_, agrees.answered complete, ?_⟩
  · intro i
    rw [← System.map_fst_share, ← (shares i).1]
  · intro withTree key
    have keySound : key.Sound := by
      cases withTree with
      | false => exact ⟨inRange, nofun⟩
      | true => exact ⟨inRange, fun _ same => (Option.some.inj same).symm⟩
    obtain ⟨results, lasting⟩ := keySound.signEach_eq_serveAll order
    refine ⟨?_, ?_⟩
    · intro i
      rw [(shares i).2, System.share, List.map_map, results]
      rfl
    · exact congrArg PrivateKey.q (lasting.trans agrees.served)
  · obtain ⟨leaves, exhausted, counter⟩ := start.serveAll_leaves inRange order
    have settled := agrees.perm_results complete
    have accepted := (agrees.perm_calls complete).countP_eq (Call.acceptable mode)
    rw [List.countP_map] at accepted
    rw [agrees.served] at counter
    dsimp only
    rw [accepted, settled.count_eq]
    exact ⟨leaves ▸ settled.filterMap _, exhausted, counter⟩

def lastLeaf : PrivateKey (ParameterSet.mode ⟨.n32, .h5⟩ ⟨.n32, .w2⟩) :=
  ⟨31, Octets.zero 16, Octets.zero 32⟩

-- Both threads see the same counter, and the second one is faster.
theorem shared_calls_linearize_race :
    let calls : Fin 2 → List Call := fun i => [⟨[UInt8.ofNat i], none⟩]
    lastLeaf.q ≤ (ParameterSet.mode ⟨.n32, .h5⟩ ⟨.n32, .w2⟩).leaves ∧
    ∃ last : System _ 2,
      System.Steps (.start ⟨lastLeaf, lastLeaf.merkleTree⟩ calls)
        [(1, ⟨[1], none⟩), (0, ⟨[0], none⟩)] last ∧
      last.Complete ∧
      (leavesOf ((List.finRange 2).flatMap fun i => (last.threads i).results)).Perm [31] := by
  intro calls
  have inRange : lastLeaf.q ≤ (ParameterSet.mode ⟨.n32, .h5⟩ ⟨.n32, .w2⟩).leaves := by decide
  have unused : (31 : UInt32) < (ParameterSet.mode ⟨.n32, .h5⟩ ⟨.n32, .w2⟩).leaves := by decide
  have used : ¬ (32 : UInt32) < (ParameterSet.mode ⟨.n32, .h5⟩ ⟨.n32, .w2⟩).leaves := by decide
  let first : System _ 2 := .start ⟨lastLeaf, lastLeaf.merkleTree⟩ calls
  have begun : first.Steps [] first := .none
  have accepted := (begun.step (i := 0) (.accept rfl)).step (i := 1) (.accept rfl)
  have loaded := (accepted.step (i := 0) .load).step (i := 1) .load
  have exchanged := loaded.step (i := 1) (.exchange unused rfl)
  have late := (exchanged.step (i := 0) (.retry unused)).step (i := 0) (.giveUp used)
  have signed := late.step (i := 1) .sign
  obtain ⟨last, steps, complete⟩ : ∃ last, first.Steps [(1, ⟨[1], none⟩), (0, ⟨[0], none⟩)] last ∧
      last.Complete := by
    refine ⟨_, signed, ?_⟩
    intro i
    match i with
    | 0 => exact ⟨rfl, rfl⟩
    | 1 => exact ⟨rfl, rfl⟩
  exact ⟨inRange, last, steps, complete, (shared_calls_linearize inRange steps complete).2.2.2.1⟩

end HashSig.ManyTime
