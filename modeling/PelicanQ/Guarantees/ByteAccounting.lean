import PelicanQ.Broker.Bytes

/-! # The byte counter

The manager keeps a running total of the bytes it stores and recomputes it from
the trees when it is opened and after retention.  The running total leaves out
the eight bytes of a dedup record, so the two agree until a publish puts a new
key on record.  It never falls below the bytes of the messages, which is why the
limit holds: a publish is admitted only if the total stays within it.
-/

namespace PelicanQ

/-- The bytes of the values in some trees of every queue. -/
def bytesIn (roles : List Role) (qm : QueueManager) : Nat :=
  ((listedQueues qm.db).map fun q =>
    (roles.map fun role => treeBytes (qm.db.trees (role.treeName q))).sum).sum

/-- The serialized lengths of all messages. -/
def messageBytes : QueueManager → Nat := bytesIn [.ready, .scheduled, .inflight, .deadLetter]

/-- The serialized lengths of everything a recount sees. -/
def storedBytes : QueueManager → Nat :=
  bytesIn [.ready, .inflight, .deadLetter, .scheduled, .dedup]

/-- The total, recomputed from the trees. -/
def recounted (ids : Nat → UInt64) (qm : QueueManager) : Outcome PelicanError UInt64 :=
  (exec ids (fun _ => 0) QueueManager.recalculateBytes qm).1

/-- A publish of a message that fits, to a queue on record that deduplicates, with a key that is
    not on record. -/
def AddsKey (bc : Bincode) (qm : QueueManager) (step : Step) : Prop :=
  ∃ queue m key, step.op = .publish queue m ∧ m.dedupKey = some key ∧
    qm.registered queue = true ∧ (policyRead bc qm.db queue).dedupWindowSecs ≠ none ∧
    key.utf8 ∉ (qm.db.trees (dedupTreeName queue)).keys ∧
    qm.hasRoom (UInt64.ofNat (bc.message.encode m).length) = true

section Refined

variable {bc : Bincode} {ids : Nat → UInt64} {qm : QueueManager} {b : Broker}

theorem bytesIn_refines (h : Refines bc qm b) (roles : List Role) :
    bytesIn roles qm = b.sum fun st => (roles.map fun role => treeBytes (st.tree bc role)).sum := by
  have names : listedQueues qm.db = b.names := by
    rw [listedQueues, h.held.registered, OrdMap.mapValues_entries, List.filterMap_map, Broker.names,
      OrdMap.keys, List.filterMap_map]
    rfl
  rw [bytesIn, names, ← Broker.sum_names h.held.utf8]
  congr 1
  refine List.map_congr_left fun q member => ?_
  obtain ⟨st, declared⟩ := h.held.mem_names.mp member
  simp only [declared, h.held.stores q st declared, Option.map_some, Option.getD_some]

theorem messageBytes_refines (fixed : bc.FixedWidth) (h : Refines bc qm b) :
    messageBytes qm = b.messageBytes bc := by
  rw [messageBytes, bytesIn_refines h, Broker.messageBytes]
  congr 1
  funext st
  simp only [List.map_cons, List.map_nil, QueueState.tree, treeBytes_image bc fixed, List.sum_cons,
    List.sum_nil, QueueState.messageBytes, QueueState.contents, bytesOf_add]
  omega

theorem storedBytes_refines (fixed : bc.FixedWidth) (h : Refines bc qm b) :
    storedBytes qm = b.messageBytes bc + 8 * b.keyCount := by
  rw [storedBytes, bytesIn_refines h, ← Broker.sum_stored]
  congr 1
  funext st
  exact QueueState.treesOf_bytes fixed

theorem recounted_refines (fixed : bc.FixedWidth) (h : Refines bc qm b) :
    recounted ids qm = .ok (UInt64.ofNat (b.messageBytes bc + 8 * b.keyCount)) := by
  have start : Refines bc (Machine.mk qm fun _ => 0).manager b := h
  have run := run_recalculateBytes ids start .ret
  rw [Program.bind_ret] at run
  rw [recounted, exec, run, Broker.totalBytes_eq fixed h.held.utf8]
  rfl

theorem policyRead_refines (h : Refines bc qm b) {queue : String} {st : QueueState}
    (declared : b.queue queue = some st) : policyRead bc qm.db queue = st.policy := by
  have found : (qm.db.trees metaRetentionTree).get queue.utf8 = some (bc.policy.encode st.policy) :=
    Refines.policy_get (s := ⟨qm, fun _ => 0⟩) h declared
  rw [policyRead, found, Option.bind_some, bc.policy.decode_encode]
  rfl

theorem Refines.registered_iff (h : Refines bc qm b) (queue : String) :
    qm.registered queue = true ↔ (b.queue queue).isSome = true := by
  have known := Refines.registered_get (s := ⟨qm, fun _ => 0⟩) h queue
  rw [QueueManager.registered]
  exact iff_of_eq (congrArg (· = true) known)

theorem Refines.hasRoom_iff (h : Refines bc qm b) (size : UInt64) :
    qm.hasRoom size = true ↔ b.limitError size = none := by
  rw [QueueManager.hasRoom, Broker.limitError, h.maxBytes, h.bytes]
  cases b.maxBytes with
  | none => simp
  | some max => by_cases exceeds : max < b.bytes + size <;> simp [exceeds]

/-- A key that is not on record makes no duplicate. -/
theorem QueueState.isDuplicate_absent (st : QueueState) {m : Message} {key : String}
    (asked : m.dedupKey = some key) (absent : key.utf8 ∉ st.dedup.keys) (clock : Nat → Int64) :
    (st.isDuplicate m clock).1 = false := by
  unfold QueueState.isDuplicate isRepeated
  cases st.policy.dedupWindowSecs with
  | none => rfl
  | some windowSecs =>
      simp only [asked, OrdMap.get_eq_none.mpr absent]
      split_ifs <;> rfl

end Refined

/-! ## The counter and the messages -/

/-- The counter is the bytes of the messages and of the keys that were on record at the last
    recount. -/
def Counted (bc : Bincode) (b : Broker) : Prop :=
  ∃ keys ≤ b.keyCount, b.bytes.toNat = b.messageBytes bc + 8 * keys

/-- The counter is what a recount would find. -/
def Exact (bc : Bincode) (b : Broker) : Prop :=
  b.bytes.toNat = b.messageBytes bc + 8 * b.keyCount

namespace Accounts

variable {bc : Bincode} {b b' : Broker} {op : Operation}

/-- No operation takes a key off the record. -/
theorem keyCount_le (accounts : Accounts bc b b' op) : b.keyCount ≤ b'.keyCount := by
  cases accounts with
  | stored _ _ _ _ keys => exact keys ▸ Nat.le_add_right _ _
  | kept _ _ keys | acked _ _ _ keys | counted _ _ keys => exact keys.ge

/-- The counter follows the messages, whatever the number of keys in it, or is set anew. -/
theorem follows (accounts : Accounts bc b b' op)
    (small : b'.messageBytes bc + 8 * b'.keyCount < 2 ^ 64) {keys : Nat} (le : keys ≤ b.keyCount)
    (count : b.bytes.toNat = b.messageBytes bc + 8 * keys) :
    b'.bytes.toNat = b'.messageBytes bc + 8 * keys ∨
      (b'.bytes.toNat = b'.messageBytes bc + 8 * b'.keyCount ∧ b'.keyCount = b.keyCount) := by
  have later := accounts.keyCount_le
  have sized {m : Message} (fits : (bc.message.encode m).length < 2 ^ 64) :
      (Broker.size bc m).toNat = (bc.message.encode m).length :=
    UInt64.toNat_ofNat_of_lt' fits
  cases accounts with
  | kept bytes messages keys => exact .inl (by rw [bytes, count, messages])
  | @stored queue m st declared admitted bytes messages keys =>
      refine .inl ?_
      rw [bytes, UInt64.toNat_add, sized (by omega), count, Nat.mod_eq_of_lt (by omega)]
      omega
  | acked m bytes messages keys =>
      refine .inl ?_
      have bound := b.bytes.toNat_lt
      have size := sized (m := m) (by omega)
      have enough : Broker.size bc m ≤ b.bytes := by
        rw [UInt64.le_iff_toNat_le, size]
        omega
      rw [bytes, QueueManager.saturatingSub64, if_pos enough, UInt64.toNat_sub_of_le _ _ enough,
        size]
      omega
  | counted messages bytes keys =>
      refine .inr ⟨?_, keys⟩
      rw [bytes, UInt64.toNat_ofNat_of_lt' small]

theorem counted_next (accounts : Accounts bc b b' op)
    (small : b'.messageBytes bc + 8 * b'.keyCount < 2 ^ 64) (counted : Counted bc b) :
    Counted bc b' := by
  obtain ⟨keys, le, count⟩ := counted
  rcases accounts.follows small le count with same | ⟨anew, -⟩
  · exact ⟨keys, le.trans accounts.keyCount_le, same⟩
  · exact ⟨b'.keyCount, Nat.le_refl _, anew⟩

/-- A publish is admitted only if the messages stay within the limit; nothing else adds any. -/
theorem within (accounts : Accounts bc b b' op) (counted : Counted bc b') {max : UInt64}
    (limit : b.maxBytes = some max) (within : b.messageBytes bc ≤ max.toNat) :
    b'.messageBytes bc ≤ max.toNat := by
  cases accounts with
  | kept _ messages => exact messages ▸ within
  | stored _ admitted bytes =>
      obtain ⟨keys, -, count⟩ := counted
      have fits : b'.bytes ≤ max := by
        by_contra exceeds
        simp only [Broker.limitError, limit, ← bytes, UInt64.not_le.mp exceeds, if_true] at admitted
        cases admitted
      rw [UInt64.le_iff_toNat_le] at fits
      omega
  | acked _ _ messages => omega
  | counted messages => exact messages.trans within

/-- The counter stays exact as long as no key is added. -/
theorem exact_next (accounts : Accounts bc b b' op)
    (small : b'.messageBytes bc + 8 * b'.keyCount < 2 ^ 64) (exact_ : Exact bc b) :
    Exact bc b' ↔ b'.keyCount = b.keyCount := by
  rw [Exact]
  rcases accounts.follows small (Nat.le_refl _) exact_ with same | ⟨anew, keys⟩
  · rw [same]
    omega
  · exact iff_of_true anew keys

end Accounts

section Steps

variable {bc : Bincode} {ids : Nat → UInt64} {maxBytes : Option UInt64} {past : List Step}
  {step : Step} {b : Broker}

theorem Performs.accounts (fixed : bc.FixedWidth) (performs : Performs bc ids maxBytes past step b) :
    Accounts bc b (b.perform bc ids step.clock step.op).2 step.op :=
  .perform step.clock fixed performs.sound performs.before.held.utf8 step.op performs.increasing

/-- The keys on record change exactly when a publish adds one. -/
theorem Performs.addsKey_iff (fixed : bc.FixedWidth)
    (performs : Performs bc ids maxBytes past step b) :
    AddsKey bc (final bc ids (started bc ids maxBytes) past) step ↔
      (b.perform bc ids step.clock step.op).2.keyCount ≠ b.keyCount := by
  have accounts := performs.accounts fixed
  have before := performs.before
  have dedup (queue : String) (st : QueueState) (declared : b.queue queue = some st) :
      ((final bc ids (started bc ids maxBytes) past).db.trees (dedupTreeName queue)).keys =
        st.dedup.keys := by
    rw [show dedupTreeName queue = Role.dedup.treeName queue from rfl,
      before.held.stores queue st declared, QueueState.tree, OrdMap.mapValues_keys]
  obtain ⟨op, clock⟩ := step
  constructor
  · rintro ⟨queue, m, key, rfl, asked, registered, window, absent, room⟩
    obtain ⟨st, declared⟩ : ∃ st, b.queue queue = some st :=
      Option.isSome_iff_exists.mp ((before.registered_iff queue).mp registered)
    rw [policyRead_refines before declared] at window
    rw [dedup queue st declared] at absent
    have answer : (b.publish bc ids clock queue m).1 = .ok (.stored m.id) := by
      simp only [Broker.publish, declared, st.isDuplicate_absent asked absent clock,
        (before.hasRoom_iff _).mp room, Broker.size, Bool.false_eq_true, if_false]
    rcases Broker.keyCount_publish declared clock m with ⟨-, count⟩ | ⟨other, -⟩
    · have new : st.newKeys m = 1 := by
        unfold QueueState.newKeys
        cases asks : st.policy.dedupWindowSecs with
        | none => exact absurd asks window
        | some windowSecs => simp only [asked, absent, if_false]
      change (b.publish bc ids clock queue m).2.keyCount ≠ _
      rw [count, new]
      exact Nat.succ_ne_self _
    · exact absurd answer other
  · intro changed
    cases accounts with
    | kept _ _ keys | acked _ _ _ keys | counted _ _ keys => exact absurd keys changed
    | @stored queue m st declared admitted bytes messages keys =>
        have new : st.newKeys m ≠ 0 := by
          intro none
          rw [none, Nat.add_zero] at keys
          exact changed keys
        unfold QueueState.newKeys at new
        cases window : st.policy.dedupWindowSecs with
        | none => simp [window] at new
        | some windowSecs =>
            cases asked : m.dedupKey with
            | none => simp [window, asked] at new
            | some key =>
                simp only [window, asked, ne_eq, ite_eq_left_iff, one_ne_zero, imp_false, not_not]
                  at new
                refine ⟨queue, m, key, rfl, asked, ?_, ?_, ?_, (before.hasRoom_iff _).mpr admitted⟩
                · exact (before.registered_iff queue).mpr (Option.isSome_iff_exists.mpr ⟨st, declared⟩)
                · rw [policyRead_refines before declared, window]
                  rintro ⟨⟩
                · rwa [dedup queue st declared]

/-- What a database of addressable size says about the counter. -/
theorem Refines.exact_iff {qm : QueueManager} (h : Refines bc qm b) (fixed : bc.FixedWidth)
    (small : storedBytes qm < 2 ^ 64) :
    recounted ids qm = .ok qm.currentBytes ↔ Exact bc b := by
  rw [storedBytes_refines fixed h] at small
  rw [recounted_refines fixed h, h.bytes, Outcome.ok.injEq, ← UInt64.toNat_inj,
    UInt64.toNat_ofNat_of_lt' small, Exact, eq_comm]

end Steps

/-- The counter is what a recount finds, in every state of a run, exactly when no publish of the
    run adds a dedup key. -/
theorem counter_exact_iff (bc : Bincode) (fixed : bc.FixedWidth) (ids : Nat → UInt64)
    (maxBytes : Option UInt64) (steps : List Step) (apart : NonColliding (declaredNames steps))
    (increasing : Increasing ids (final bc ids (started bc ids maxBytes) steps))
    (addressable : ∀ done rest, steps = done ++ rest →
      storedBytes (final bc ids (started bc ids maxBytes) done) < 2 ^ 64) :
    (∀ done rest, steps = done ++ rest →
        recounted ids (final bc ids (started bc ids maxBytes) done) =
          .ok (final bc ids (started bc ids maxBytes) done).currentBytes) ↔
      ∀ done step rest, steps = done ++ step :: rest →
        ¬ AddsKey bc (final bc ids (started bc ids maxBytes) done) step := by
  have part {done rest : List Step} (split : steps = done ++ rest) :
      NonColliding (declaredNames done) ∧
        Increasing ids (final bc ids (started bc ids maxBytes) done) := by
    subst split
    exact ⟨apart.upTo, increasing.upToSteps⟩
  constructor
  · intro exactly done step rest split adds
    have next : steps = (done ++ [step]) ++ rest := by rw [split, List.append_assoc]; rfl
    obtain ⟨b, performs⟩ := run_last (part next).1 (part next).2
    have small := addressable (done ++ [step]) rest next
    have before := (performs.before.exact_iff fixed (addressable done _ split)).mp
      (exactly done _ split)
    have after := (performs.after.exact_iff fixed small).mp (exactly (done ++ [step]) rest next)
    rw [storedBytes_refines fixed performs.after] at small
    exact (performs.addsKey_iff fixed).mp adds
      (((performs.accounts fixed).exact_next small before).mp after)
  · intro quiet done rest split
    obtain ⟨b, refines, -, inv⟩ := run_steps bc ids maxBytes
      (fun past b => ∀ rest, steps = past ++ rest → Exact bc b) (fun _ _ => rfl)
      (fun past step b inv performs rest split => by
        have here : steps = past ++ step :: rest := by rw [split, List.append_assoc]; rfl
        have small := addressable (past ++ [step]) rest split
        rw [storedBytes_refines fixed performs.after] at small
        refine ((performs.accounts fixed).exact_next small (inv _ here)).mpr ?_
        by_contra changed
        exact quiet past step rest here ((performs.addsKey_iff fixed).mpr changed))
      done (part split).1 (part split).2
    exact (refines.exact_iff fixed (addressable done rest split)).mpr (inv rest split)

theorem bincode_fixedWidth : bincode.FixedWidth := by
  have width (n : UInt32) : (Wire.u32.write n).length = 4 := by
    change (BigEndian.encode 4 n.toNat).reverse.length = 4
    simp
  intro m
  simp only [bincode, Wire.toCodec, messageWire, Wire.imap, Wire.pair, List.length_append, width,
    Message.content]

/-- A publish that puts a dedup key on record. -/
def keyedRun : List Step :=
  [⟨.declareQueueWithRetention "q" { dedupWindowSecs := some 60 }, fun _ => 5⟩,
    ⟨.publish "q" ⟨1, [], [], 0, 0, 3, none, some "k"⟩, fun _ => 5⟩]

theorem keyedRun_drifts :
    recounted (counter 0) (final bincode (counter 0) (started bincode (counter 0) none) keyedRun) ≠
      .ok (final bincode (counter 0) (started bincode (counter 0) none) keyedRun).currentBytes := by
  decide +kernel

/-- Messages come, are retried and leave in both ways. -/
def countedRun : List Step :=
  [⟨.declareQueueWithRetention "q" { maxMessages := some 1 }, fun _ => 5⟩,
    ⟨.publish "q" ⟨1, [7], [], 0, 0, 3, none, none⟩, fun _ => 5⟩,
    ⟨.publish "q" ⟨2, [7, 7], [], 0, 0, 9, none, none⟩, fun _ => 5⟩,
    ⟨.consume "q", fun _ => 5⟩,
    ⟨.nack "q" 1, fun _ => 5⟩,
    ⟨.consume "q", fun _ => 5⟩,
    ⟨.ack "q" 2, fun _ => 5⟩,
    ⟨.publish "q" ⟨3, [], [], 0, 0, 0, some 50, none⟩, fun _ => 5⟩,
    ⟨.promoteScheduled "q", fun _ => 60⟩,
    ⟨.applyRetention "q", fun _ => 60⟩]

theorem countedRun_exact :
    recounted (counter 0) (final bincode (counter 0) (started bincode (counter 0) none) countedRun) =
      .ok (final bincode (counter 0) (started bincode (counter 0) none) countedRun).currentBytes := by
  have drawn : (final bincode (counter 0) (started bincode (counter 0) none) countedRun).db.drawn =
      5 := by
    decide +kernel
  have small : ∀ done ∈ countedRun.inits, storedBytes (final bincode (counter 0)
      (started bincode (counter 0) none) done) < 2 ^ 64 := by
    decide +kernel
  refine (counter_exact_iff bincode bincode_fixedWidth (counter 0) none countedRun (by decide)
    (counter_increasing (by rw [drawn]; decide))
    fun done rest split => small done ((List.mem_inits _ _).mpr ⟨rest, split.symm⟩)).mpr ?_
    countedRun [] (List.append_nil _).symm
  rintro done step rest split ⟨queue, m, key, publishes, asked, -⟩
  have unkeyed : ∀ step ∈ countedRun, ∀ queue m, step.op = .publish queue m → m.dedupKey = none := by
    simp [countedRun]
  rw [unkeyed step (split ▸ List.mem_append_right _ List.mem_cons_self) queue m publishes] at asked
  cases asked

/-- The messages stay within the limit. -/
theorem messages_within_limit (bc : Bincode) (fixed : bc.FixedWidth) (ids : Nat → UInt64)
    (max : UInt64) (steps : List Step) (apart : NonColliding (declaredNames steps))
    (increasing : Increasing ids (final bc ids (started bc ids (some max)) steps))
    (limited : ∀ step ∈ steps, ∀ maxBytes, step.op = .reopen maxBytes → maxBytes = some max)
    (addressable : ∀ done rest, steps = done ++ rest →
      storedBytes (final bc ids (started bc ids (some max)) done) < 2 ^ 64) :
    messageBytes (final bc ids (started bc ids (some max)) steps) ≤ max.toNat := by
  obtain ⟨b, refines, -, inv⟩ := run_steps bc ids (some max)
    (fun past b => ∀ rest, steps = past ++ rest →
      Counted bc b ∧ b.messageBytes bc ≤ max.toNat ∧ b.maxBytes = some max)
    (fun _ _ => ⟨⟨0, Nat.le_refl _, rfl⟩, Nat.zero_le _, rfl⟩)
    (fun past step b inv performs rest split => by
      have here : steps = past ++ step :: rest := by rw [split, List.append_assoc]; rfl
      obtain ⟨counted, within, limit⟩ := inv _ here
      have small := addressable (past ++ [step]) rest split
      rw [storedBytes_refines fixed performs.after] at small
      have accounts := performs.accounts fixed
      have counted' := accounts.counted_next small counted
      refine ⟨counted', accounts.within counted' limit within, ?_⟩
      cases on : step.op.on with
      | some queue => exact (Broker.perform_maxBytes bc ids step.clock on).trans limit
      | none =>
          obtain ⟨maxBytes, reopens⟩ := step.op.on_none on
          rw [reopens]
          have member : step ∈ steps := here ▸ List.mem_append_right _ List.mem_cons_self
          exact (Broker.reopen_maxBytes maxBytes).trans (limited step member maxBytes reopens))
    steps apart increasing
  rw [messageBytes_refines fixed refines]
  exact (inv [] (List.append_nil _).symm).2.1

theorem countedRun_within :
    messageBytes (final bincode (counter 0) (started bincode (counter 0) (some 200)) countedRun) ≤
      200 := by
  have drawn : (final bincode (counter 0) (started bincode (counter 0) (some 200))
      countedRun).db.drawn = 5 := by
    decide +kernel
  have small : ∀ done ∈ countedRun.inits, storedBytes (final bincode (counter 0)
      (started bincode (counter 0) (some 200)) done) < 2 ^ 64 := by
    decide +kernel
  exact messages_within_limit bincode bincode_fixedWidth (counter 0) 200 countedRun (by decide)
    (counter_increasing (by rw [drawn]; decide)) (by simp [countedRun])
    fun done rest split => small done ((List.mem_inits _ _).mpr ⟨rest, split.symm⟩)

end PelicanQ
