import PelicanQ.Guarantees.Declined
import PelicanQ.Guarantees.Collisions
import PelicanQ.Guarantees.Retention

/-! # The arithmetic of policies

Seconds of a policy are cast from unsigned to signed words and multiplied by a
thousand, the time of a message is subtracted from the clock, and a percentage
is cut down to a byte.  The attempts of a message are counted in a word that a
client may set.  Each decision is what it says over the integers exactly
when the numbers that go in are small enough; the bounds are those of the word
each result has to fit in.
-/

namespace PelicanQ

open QueueManager

section Managers

variable {bc : Bincode} {qm : QueueManager} {q : String} {policy : RetentionPolicy}

/-! ## Publishing -/

/-- What a publish does once nothing speaks against it. -/
def store (bc : Bincode) (q : String) (m : Message) (policy : RetentionPolicy) :
    Action PublishOutcome := do
  let value := bc.message.encode m
  let msgLen := UInt64.ofNat value.length
  let id ← generateId
  match ← QueueManager.notYetDue m with
  | some deliverAt => do
      openTree (scheduledTreeName q)
      insert (scheduledTreeName q) (encodeScheduledKey deliverAt id) value
      addBytes msgLen
      recordDedupKey q m policy
      pure (.stored m.id)
  | none => do
      openTree q
      insert q (encodeKey m.priority id) value
      addBytes msgLen
      recordDedupKey q m policy
      pure (.stored m.id)

theorem run_publish (known : Known bc qm q policy) (m : Message) (ids : Nat → UInt64)
    (clock : Nat → Int64) :
    (publish bc q m).run (handle ids) ⟨qm, clock⟩ =
      (isDuplicate q m policy >>= fun duplicate =>
        if duplicate then pure .deduplicated else do
          checkLimit (UInt64.ofNat (bc.message.encode m).length)
          store bc q m policy).run (handle ids) ⟨qm, clock⟩ := by
  rw [publish, run_requireQueue_found ids ⟨qm, clock⟩ _ (congrArg Option.isSome known.registered),
    run_policyOf_record ids ⟨qm, clock⟩ _ known.record]
  rfl

theorem ends_store (m : Message) {error : PelicanError → Prop} : (store bc q m policy).Ends
    (fun outcome => ¬outcome = .deduplicated) error := by
  have due : (QueueManager.notYetDue m).Ends (fun _ => True) error := by
    unfold QueueManager.notYetDue
    split
    · exact fun _ => trivial
    · trivial
  refine fun id => due.bind fun later _ => ?_
  cases later with
  | some deliverAt => exact fun _ _ _ _ => ends_stored m policy
  | none => exact fun _ _ _ _ => ends_stored m policy

/-- The check of a limit that is set. -/
theorem run_checkLimit_limited {s : Machine} {max : UInt64} (limited : s.manager.maxBytes = some max)
    (positive : 0 < max) (ids : Nat → UInt64) (size : UInt64) {α : Type} (next : Unit → Action α) :
    (checkLimit size >>= next).run (handle ids) s =
      if max < s.manager.currentBytes + size then
        (.err (.storageLimitExceeded (s.manager.currentBytes * 100 / max).toUInt8 100), s)
      else (next ()).run (handle ids) s := by
  rw [checkLimit, Program.bind_assoc, run_maxBytes, limited]
  simp only [Program.bind_assoc, run_currentBytes, if_pos positive]
  split_ifs <;> rfl

/-- A key that is on record is found within the window by one subtraction. -/
theorem run_isDuplicate_recorded {s : Machine} {m : Message} {key : String}
    (keyed : m.dedupKey = some key) {windowSecs : UInt64}
    (window : policy.dedupWindowSecs = some windowSecs) (positive : 0 < windowSecs)
    {recorded : Int64}
    (found : (s.db.trees (dedupTreeName q)).get key.utf8 = some recorded.toBeBytes)
    (ids : Nat → UInt64) {α : Type} (next : Bool → Action α) :
    (isDuplicate q m policy >>= next).run (handle ids) s =
      (next (decide (s.clock 0 - windowSecs.toInt64 * 1000 < recorded))).run (handle ids) s.tick := by
  have fits : 8 ≤ recorded.toBeBytes.length := (Int64.length_toBeBytes recorded).ge
  rw [isDuplicate, window, keyed]
  simp only [if_pos positive, Program.bind_assoc, run_openTree, run_get, found]
  rw [slice_of_le fits, Program.ret_bind, run_nowMs,
    List.take_of_length_le (Int64.length_toBeBytes recorded).le, List.drop_zero,
    Int64.fromBeBytes_toBeBytes]
  rfl

theorem stored_not_deduplicated (m : Message) (ids : Nat → UInt64) (s : Machine) :
    ((do checkLimit (UInt64.ofNat (bc.message.encode m).length)
         store bc q m policy : Action PublishOutcome).run (handle ids) s).1 ≠ .ok .deduplicated := by
  have limit : (checkLimit (UInt64.ofNat (bc.message.encode m).length)).Ends (fun _ => True)
      fun _ => True := by
    rintro (_ | max)
    · trivial
    · exact fun _ => .ite trivial trivial
  exact fun ran => (limit.bind fun _ _ => ends_store m).ok ran rfl

/-- When a publish of a recorded key is taken for a duplicate. -/
theorem publish_deduplicated_iff (known : Known bc qm q policy) {m : Message}
    {key : String} (keyed : m.dedupKey = some key) {windowSecs : UInt64}
    (window : policy.dedupWindowSecs = some windowSecs) {recorded : Int64}
    (found : (qm.db.trees (dedupTreeName q)).get key.utf8 = some recorded.toBeBytes)
    (ids : Nat → UInt64) (clock : Nat → Int64) :
    (exec ids clock (publish bc q m) qm).1 = .ok .deduplicated ↔
      0 < windowSecs ∧ clock 0 - windowSecs.toInt64 * 1000 < recorded := by
  change ((publish bc q m).run (handle ids) ⟨qm, clock⟩).1 = _ ↔ _
  rw [run_publish known]
  by_cases positive : 0 < windowSecs
  · rw [run_isDuplicate_recorded (s := ⟨qm, clock⟩) keyed window positive found]
    by_cases inside : clock 0 - windowSecs.toInt64 * 1000 < recorded
    · simp only [inside, decide_true, if_true]
      exact iff_of_true rfl ⟨positive, trivial⟩
    · simp only [inside, decide_false, Bool.false_eq_true, if_false, and_false, iff_false]
      exact stored_not_deduplicated m ids _
  · rw [isDuplicate, window, keyed]
    simp only [positive, if_false, Program.pure_eq, Program.ret_bind, Bool.false_eq_true,
      false_and, iff_false]
    exact stored_not_deduplicated m ids _

/-- When a publish that is no duplicate is refused, and with which share. -/
theorem publish_refused_iff (known : Known bc qm q policy) {m : Message} {ids : Nat → UInt64}
    {clock : Nat → Int64} (fresh : (exec ids clock (isDuplicate q m policy) qm).1 = .ok false)
    {max : UInt64} (limited : qm.maxBytes = some max) (positive : 0 < max) (usedPct limitPct : UInt8) :
    (exec ids clock (publish bc q m) qm).1 = .err (.storageLimitExceeded usedPct limitPct) ↔
      max < qm.currentBytes + UInt64.ofNat (bc.message.encode m).length ∧
        usedPct = (qm.currentBytes * 100 / max).toUInt8 ∧ limitPct = 100 := by
  have unread : qm.Intact ((isDuplicate q m policy).run (handle ids) ⟨qm, clock⟩).2.manager :=
    Program.Only.preserves (fun t : Machine => qm.Intact t.manager) (handle_reads qm)
      (QueueManager.only_isDuplicate m policy) (.refl _)
  change ((publish bc q m).run (handle ids) ⟨qm, clock⟩).1 = _ ↔ _
  change ((isDuplicate q m policy).run (handle ids) ⟨qm, clock⟩).1 = _ at fresh
  rw [run_publish known, Program.run_bind]
  cases ran : (isDuplicate q m policy).run (handle ids) ⟨qm, clock⟩ with
  | mk outcome t =>
      rw [ran] at fresh unread
      cases fresh
      have limit : t.manager.maxBytes = some max := unread.maxBytes.trans limited
      have bytes : t.manager.currentBytes = qm.currentBytes := unread.currentBytes
      simp only [Outcome.andThen, Bool.false_eq_true, if_false,
        run_checkLimit_limited limit positive, bytes]
      split_ifs with exceeds
      · simp only [Outcome.err.injEq, PelicanError.storageLimitExceeded.injEq, exceeds, true_and]
        exact ⟨fun ⟨a, b⟩ => ⟨a.symm, b.symm⟩, fun ⟨a, b⟩ => ⟨a.symm, b.symm⟩⟩
      · have stored : (store bc q m policy).Ends (fun outcome => ¬outcome = .deduplicated)
            fun _ => False := ends_store m
        exact iff_of_false (fun refused => stored.err refused) fun refused => exceeds refused.1

/-! ## Retention -/

theorem collectExpired_readable (now maxAgeMs : Int64) (entries : List (Bytes × Bytes))
    (readable : ∀ e ∈ entries, ∃ m, bc.message.decode e.2 = .ok m) :
    collectExpired bc now maxAgeMs entries =
      .ret ((entries.filter fun e =>
        (bc.message.decode e.2).toOption.any (·.reached maxAgeMs now)).map Prod.fst) := by
  induction entries with
  | nil => rfl
  | cons e entries ih =>
      obtain ⟨m, decoded⟩ := readable e List.mem_cons_self
      rw [collectExpired, deserialize, decoded, ih fun e' member =>
        readable e' (List.mem_cons_of_mem _ member), List.filter_cons, decoded]
      simp only [Program.pure_eq, Program.ret_bind, Except.toOption, Option.any_some,
        Message.reached, decide_eq_true_eq]
      split_ifs <;> rfl

/-- When the first pass of retention removes a message. -/
theorem removeExpired_gone_iff (readable : ∀ value ∈ (qm.db.trees q).values,
      ∃ m, bc.message.decode value = .ok m) {key value : Bytes} {m : Message}
    (found : (qm.db.trees q).get key = some value) (decoded : bc.message.decode value = .ok m)
    (maxAgeSecs : UInt64) (ids : Nat → UInt64) (clock : Nat → Int64) :
    ((exec ids clock (removeExpired bc q (some maxAgeSecs)) qm).2.db.trees q).get key = none ↔
      maxAgeSecs.toInt64 * 1000 ≤ clock 0 - m.timestamp := by
  let expired (e : Bytes × Bytes) :=
    (bc.message.decode e.2).toOption.any (·.reached (maxAgeSecs.toInt64 * 1000) (clock 0))
  let old := ((qm.db.trees q).entries.filter expired).map Prod.fst
  have collected : collectExpired bc (clock 0) (maxAgeSecs.toInt64 * 1000)
      (qm.db.trees q).entries = .ret old :=
    collectExpired_readable _ _ _ fun e member => readable e.2 (List.mem_map_of_mem member)
  obtain ⟨s', left, run⟩ := run_removeAll ids (Machine.mk qm clock).tick q old fun _ =>
    pure old.length
  have ran : (removeExpired bc q (some maxAgeSecs)).run (handle ids) ⟨qm, clock⟩ =
      (.ok old.length, s') := by
    rw [removeExpired, run_nowMs, run_iter]
    change Program.run _ (collectExpired bc (clock 0) _ (qm.db.trees q).entries >>= _) _ = _
    rw [collected]
    exact run
  have kept : (s'.db.trees q).entries = (qm.db.trees q).entries.filter fun e => !expired e := by
    rw [left]
    exact OrdMap.foldl_erase_filter _ _
  change (((removeExpired bc q (some maxAgeSecs)).run (handle ids) ⟨qm, clock⟩).2.db.trees q).get
    key = none ↔ _
  rw [ran, OrdMap.get_filtered kept found]
  simp only [expired, decoded, Except.toOption, Option.any_some, Message.reached]
  by_cases old : maxAgeSecs.toInt64 * 1000 ≤ clock 0 - m.timestamp <;> simp [old]

/-- Without a limit on how many there may be, retention is its first pass. -/
theorem applyRetention_ready (known : Known bc qm q policy) {maxAgeSecs : UInt64}
    (age : policy.maxAgeSecs = some maxAgeSecs) (unlimited : policy.maxMessages = none)
    (ids : Nat → UInt64) (clock : Nat → Int64) (key : Bytes) :
    ((exec ids clock (applyRetention bc q) qm).2.db.trees q).get key =
      ((exec ids clock (removeExpired bc q (some maxAgeSecs)) qm).2.db.trees q).get key := by
  have rest (removed : Nat) : (if 0 < removed then do
      let total ← recalculateBytes
      .ask (.setCurrentBytes total)
      pure removed
    else pure removed : Action Nat).Only (Call.Within fun _ _ => False) :=
    .ite (.bind (only_recalculateBytes _) fun _ => .bind (.ask trivial) fun _ => trivial) trivial
  change (((applyRetention bc q).run (handle ids) ⟨qm, clock⟩).2.db.trees q).get key =
    (((removeExpired bc q (some maxAgeSecs)).run (handle ids) ⟨qm, clock⟩).2.db.trees q).get key
  rw [applyRetention, run_requireQueue_found ids ⟨qm, clock⟩ _
      (congrArg Option.isSome known.registered), run_policyOf_record ids ⟨qm, clock⟩ _ known.record,
    age, unlimited]
  simp only [reduceCtorEq, false_and, if_false, run_openTree, removeExcess, Program.pure_eq,
    Program.ret_bind, Nat.add_zero]
  rw [Program.run_bind]
  cases ran : (removeExpired bc q (some maxAgeSecs)).run (handle ids) ⟨qm, clock⟩ with
  | mk outcome s =>
      cases outcome with
      | ok removed => exact exec_outside (rest removed) ids s not_false
      | err | panicked | diverged => rfl

end Managers

/-! ## Over the integers -/

/-- The decision about a recorded key is the integers', and so is every step of it. -/
structure WindowExact (bc : Bincode) (ids : Nat → UInt64) (clock : Nat → Int64) (qm : QueueManager)
    (q : String) (m : Message) (windowSecs : UInt64) (recorded : Int64) : Prop where
  decision : (exec ids clock (publish bc q m) qm).1 = .ok .deduplicated ↔
    (clock 0).toInt - recorded.toInt < 1000 * windowSecs.toNat
  cast : windowSecs.toInt64.toInt = windowSecs.toNat
  product : (windowSecs.toInt64 * 1000).toInt = windowSecs.toInt64.toInt * 1000
  difference : (clock 0 - windowSecs.toInt64 * 1000).toInt =
    (clock 0).toInt - (windowSecs.toInt64 * 1000).toInt

/-- The decision about the age of a message is the integers', and so is every step of it. -/
structure AgeExact (bc : Bincode) (ids : Nat → UInt64) (clock : Nat → Int64) (qm : QueueManager)
    (q : String) (policy : RetentionPolicy) (key : Bytes) (m : Message) (maxAgeSecs : UInt64) :
    Prop where
  decision : ((exec ids clock (removeExpired bc q (some maxAgeSecs)) qm).2.db.trees q).get key =
    none ↔ 1000 * maxAgeSecs.toNat ≤ (clock 0).toInt - m.timestamp.toInt
  retention : policy.maxMessages = none →
    (((exec ids clock (applyRetention bc q) qm).2.db.trees q).get key = none ↔
      1000 * maxAgeSecs.toNat ≤ (clock 0).toInt - m.timestamp.toInt)
  cast : maxAgeSecs.toInt64.toInt = maxAgeSecs.toNat
  product : (maxAgeSecs.toInt64 * 1000).toInt = maxAgeSecs.toInt64.toInt * 1000
  difference : (clock 0 - m.timestamp).toInt = (clock 0).toInt - m.timestamp.toInt

/-- The share a refused publish reports is the whole part of the percentage, and every step
    of the check is the naturals'. -/
structure ShareExact (bc : Bincode) (ids : Nat → UInt64) (clock : Nat → Int64) (qm : QueueManager)
    (q : String) (m : Message) (max : UInt64) : Prop where
  share : ∀ usedPct limitPct, (exec ids clock (publish bc q m) qm).1 =
      .err (.storageLimitExceeded usedPct limitPct) →
    usedPct.toNat = min 255 (100 * qm.currentBytes.toNat / max.toNat) ∧
      (qm.currentBytes * 100).toNat = qm.currentBytes.toNat * 100
  sum : (qm.currentBytes + UInt64.ofNat (bc.message.encode m).length).toNat =
    qm.currentBytes.toNat + (UInt64.ofNat (bc.message.encode m).length).toNat

/-- Seconds become milliseconds without loss exactly when the milliseconds fit. -/
theorem milliseconds_exact_iff (secs : UInt64) :
    secs.toInt64.toInt = secs.toNat ∧ (secs.toInt64 * 1000).toInt = secs.toInt64.toInt * 1000 ↔
      1000 * secs.toNat < 2 ^ 63 := by
  have thousand : (1000 : Int64).toInt = 1000 := by decide
  constructor
  · rintro ⟨cast, product⟩
    have small := (Int64.mul_exact _ _).mp (product.trans (by rw [thousand]))
    rw [thousand, cast] at small
    omega
  · intro fits
    have cast := secs.toInt64_exact.mpr (by omega)
    exact ⟨cast, by rw [milliseconds_exact fits, cast]; omega⟩

section Exact

variable {bc : Bincode} {qm : QueueManager} {q : String} {policy : RetentionPolicy}
  {ids : Nat → UInt64} {clock : Nat → Int64}

theorem window_exact_iff (known : Known bc qm q policy) (read : 0 ≤ clock 0) {m : Message}
    {key : String} (keyed : m.dedupKey = some key) {windowSecs : UInt64}
    (window : policy.dedupWindowSecs = some windowSecs) {recorded : Int64}
    (found : (qm.db.trees (dedupTreeName q)).get key.utf8 = some recorded.toBeBytes) :
    WindowExact bc ids clock qm q m windowSecs recorded ↔
      1000 * windowSecs.toNat < 2 ^ 63 ∧ (windowSecs = 0 → recorded ≤ clock 0) := by
  have decided := publish_deduplicated_iff known keyed window found ids clock
  have zero : (0 : Int64).toInt = 0 := by decide
  have early := (clock 0).toInt_lt
  rw [Int64.le_iff_toInt_le, zero] at read
  have positive : 0 < windowSecs ↔ windowSecs.toNat ≠ 0 := by
    rw [UInt64.lt_iff_toNat_lt]
    exact Nat.pos_iff_ne_zero
  have none_set : windowSecs = 0 ↔ windowSecs.toNat = 0 := UInt64.toNat_inj.symm
  rw [none_set, Int64.le_iff_toInt_le]
  constructor
  · rintro ⟨decision, cast, product, -⟩
    refine ⟨(milliseconds_exact_iff windowSecs).mp ⟨cast, product⟩, fun empty => ?_⟩
    have outside := decision.not.mp (mt decided.mp fun inside => positive.mp inside.1 empty)
    omega
  · rintro ⟨fits, ordered⟩
    obtain ⟨cast, product⟩ := (milliseconds_exact_iff windowSecs).mpr fits
    have whole := milliseconds_exact fits
    have difference := (Int64.sub_exact (clock 0) (windowSecs.toInt64 * 1000)).mpr (by omega)
    refine ⟨?_, cast, product, difference⟩
    rw [decided, positive, Int64.lt_iff_toInt_lt, difference, whole]
    omega

theorem age_exact_iff (known : Known bc qm q policy) (read : 0 ≤ clock 0)
    (readable : ∀ value ∈ (qm.db.trees q).values, ∃ m, bc.message.decode value = .ok m)
    {key value : Bytes} {m : Message} (found : (qm.db.trees q).get key = some value)
    (decoded : bc.message.decode value = .ok m) {maxAgeSecs : UInt64}
    (age : policy.maxAgeSecs = some maxAgeSecs) :
    AgeExact bc ids clock qm q policy key m maxAgeSecs ↔
      1000 * maxAgeSecs.toNat < 2 ^ 63 ∧ (clock 0).toInt - m.timestamp.toInt < 2 ^ 63 := by
  have decided := removeExpired_gone_iff readable found decoded maxAgeSecs ids clock
  have zero : (0 : Int64).toInt = 0 := by decide
  have early := m.timestamp.toInt_lt
  rw [Int64.le_iff_toInt_le, zero] at read
  constructor
  · rintro ⟨-, -, cast, product, difference⟩
    exact ⟨(milliseconds_exact_iff maxAgeSecs).mp ⟨cast, product⟩,
      ((Int64.sub_exact _ _).mp difference).2⟩
  · rintro ⟨fits, later⟩
    obtain ⟨cast, product⟩ := (milliseconds_exact_iff maxAgeSecs).mpr fits
    have difference := (Int64.sub_exact (clock 0) m.timestamp).mpr (by omega)
    rw [Int64.le_iff_toInt_le, difference, milliseconds_exact fits] at decided
    refine ⟨decided, fun unlimited => ?_, cast, product, difference⟩
    rw [applyRetention_ready known age unlimited]
    exact decided

theorem share_exact_iff (known : Known bc qm q policy) {m : Message}
    (fresh : (exec ids clock (isDuplicate q m policy) qm).1 = .ok false) {max : UInt64}
    (limited : qm.maxBytes = some max) (positive : 0 < max) :
    ShareExact bc ids clock qm q m max ↔
      qm.currentBytes.toNat + (UInt64.ofNat (bc.message.encode m).length).toNat < 2 ^ 64 ∧
        (max.toNat < qm.currentBytes.toNat + (UInt64.ofNat (bc.message.encode m).length).toNat →
          100 * qm.currentBytes.toNat < 2 ^ 64 ∧
            (100 * qm.currentBytes.toNat / max.toNat ≤ 255 ∨
              100 * qm.currentBytes.toNat / max.toNat % 256 = 255)) := by
  have refused := publish_refused_iff known fresh limited positive
  have sum := qm.currentBytes.toNat_add (UInt64.ofNat (bc.message.encode m).length)
  have product : (qm.currentBytes * 100).toNat = qm.currentBytes.toNat * 100 % 2 ^ 64 :=
    qm.currentBytes.toNat_mul 100
  have byte : (qm.currentBytes * 100 / max).toUInt8.toNat =
      (qm.currentBytes * 100).toNat / max.toNat % 256 := by
    rw [UInt64.toNat_toUInt8, UInt64.toNat_div]
  have bounded := Nat.mod_lt (qm.currentBytes.toNat * 100) (show 0 < 2 ^ 64 by decide)
  constructor
  · rintro ⟨share, whole⟩
    refine ⟨by omega, fun exceeds => ?_⟩
    obtain ⟨reported, exact_⟩ :=
      share _ _ ((refused _ _).mpr ⟨UInt64.lt_iff_toNat_lt.mpr (by omega), rfl, rfl⟩)
    rw [byte, exact_, Nat.mul_comm qm.currentBytes.toNat] at reported
    exact ⟨by omega, by omega⟩
  · rintro ⟨fits, reported⟩
    have whole : (qm.currentBytes + UInt64.ofNat (bc.message.encode m).length).toNat =
        qm.currentBytes.toNat + (UInt64.ofNat (bc.message.encode m).length).toNat := by omega
    refine ⟨fun used limit error => ?_, whole⟩
    obtain ⟨exceeds, rfl, rfl⟩ := (refused used limit).mp error
    obtain ⟨small, share⟩ := reported (by rw [← whole]; exact UInt64.lt_iff_toNat_lt.mp exceeds)
    have exact_ : (qm.currentBytes * 100).toNat = qm.currentBytes.toNat * 100 := by omega
    rw [byte, exact_, Nat.mul_comm qm.currentBytes.toNat]
    refine ⟨?_, rfl⟩
    generalize 100 * qm.currentBytes.toNat / max.toNat = percentage at share ⊢
    omega

/-- Policies are decided over the integers exactly where their numbers fit. -/
theorem policies_exact_iff (bc : Bincode) (ids : Nat → UInt64) (clock : Nat → Int64)
    (read : 0 ≤ clock 0) (qm : QueueManager) (q : String) (policy : RetentionPolicy)
    (known : Known bc qm q policy) :
    (∀ (m : Message) (key : String) (windowSecs : UInt64) (recorded : Int64),
      m.dedupKey = some key → policy.dedupWindowSecs = some windowSecs →
      (qm.db.trees (dedupTreeName q)).get key.utf8 = some recorded.toBeBytes →
      (WindowExact bc ids clock qm q m windowSecs recorded ↔
        1000 * windowSecs.toNat < 2 ^ 63 ∧ (windowSecs = 0 → recorded ≤ clock 0))) ∧
    (∀ (key value : Bytes) (m : Message) (maxAgeSecs : UInt64),
      policy.maxAgeSecs = some maxAgeSecs →
      (∀ value ∈ (qm.db.trees q).values, ∃ m, bc.message.decode value = .ok m) →
      (qm.db.trees q).get key = some value → bc.message.decode value = .ok m →
      (AgeExact bc ids clock qm q policy key m maxAgeSecs ↔
        1000 * maxAgeSecs.toNat < 2 ^ 63 ∧ (clock 0).toInt - m.timestamp.toInt < 2 ^ 63)) ∧
    (∀ (m : Message) (max : UInt64), qm.maxBytes = some max → 0 < max →
      (exec ids clock (isDuplicate q m policy) qm).1 = .ok false →
      (ShareExact bc ids clock qm q m max ↔
        qm.currentBytes.toNat + (UInt64.ofNat (bc.message.encode m).length).toNat < 2 ^ 64 ∧
          (max.toNat < qm.currentBytes.toNat + (UInt64.ofNat (bc.message.encode m).length).toNat →
            100 * qm.currentBytes.toNat < 2 ^ 64 ∧
              (100 * qm.currentBytes.toNat / max.toNat ≤ 255 ∨
                100 * qm.currentBytes.toNat / max.toNat % 256 = 255)))) :=
  ⟨fun _ _ _ _ keyed window found => window_exact_iff known read keyed window found,
    fun _ _ _ _ age readable found decoded => age_exact_iff known read readable found decoded age,
    fun _ _ limited positive fresh => share_exact_iff known fresh limited positive⟩

end Exact

/-! ## Small and large numbers -/

/-- Five seconds, for both. -/
def fiveSeconds : RetentionPolicy := { maxAgeSecs := some 5, dedupWindowSecs := some 5 }

/-- A message with a key, of 64 bytes. -/
def keyedMessage : Message := ⟨1, [], [], 0, 0, 0, none, some "k"⟩

/-- A queue with one message, and room for less than two. -/
def smallManager : QueueManager :=
  final bincode (counter 0) (started bincode (counter 0) (some 100))
    [⟨.declareQueueWithRetention "q" fiveSeconds, fun _ => 0⟩, ⟨.publish "q" keyedMessage, fun _ => 0⟩]

theorem smallManager_exact :
    WindowExact bincode (counter 0) (fun _ => 3000) smallManager "q" keyedMessage 5 0 ∧
      AgeExact bincode (counter 0) (fun _ => 3000) smallManager "q" fiveSeconds (encodeKey 0 0)
        keyedMessage 5 ∧
      ShareExact bincode (counter 0) (fun _ => 3000) smallManager "q" probe 100 := by
  obtain ⟨window, age, share⟩ := policies_exact_iff bincode (counter 0) (fun _ => 3000) (by decide)
    smallManager "q" fiveSeconds ⟨by decide +kernel, by decide +kernel⟩
  have stored : (smallManager.db.trees "q").values = [bincode.message.encode keyedMessage] := by
    decide +kernel
  have bytes : smallManager.currentBytes = 64 := by decide +kernel
  refine ⟨(window keyedMessage "k" 5 0 rfl rfl (by decide +kernel)).mpr (by decide),
    (age _ _ keyedMessage 5 rfl ?_ (by decide +kernel) (bincode.message.decode_encode _)).mpr
      (by decide),
    (share probe 100 (by decide +kernel) (by decide) (by decide +kernel)).mpr ?_⟩
  · intro value member
    rw [stored, List.mem_singleton] at member
    exact ⟨keyedMessage, member ▸ bincode.message.decode_encode _⟩
  · rw [bytes]
    decide +kernel

/-- As much as a policy can say. -/
def forever : RetentionPolicy :=
  { maxAgeSecs := some 18446744073709551615, dedupWindowSecs := some 18446744073709551615 }

/-- Forever is minus one second: a key repeated at once is stored again, a message that has just
    come is too old, and a store that is more than five times full reports 38 percent. -/
theorem forever_is_over :
    (events bincode (counter 0) (started bincode (counter 0) none)
        [⟨.declareQueueWithRetention "q" forever, fun _ => 0⟩,
          ⟨.publish "q" keyedMessage, fun _ => 0⟩, ⟨.publish "q" keyedMessage, fun _ => 0⟩,
          ⟨.applyRetention "q", fun _ => 0⟩]).map Event.response =
      [.declared (.ok ()), .published (.ok (.stored 1)), .published (.ok (.stored 1)),
        .retained (.ok 2)] ∧
    (events bincode (counter 0) (started bincode (counter 0) none)
        [⟨.declareQueueWithRetention "q" {}, fun _ => 0⟩, ⟨.publish "q" probe, fun _ => 0⟩,
          ⟨.reopen (some 10), fun _ => 0⟩, ⟨.publish "q" probe, fun _ => 0⟩]).map Event.response =
      [.declared (.ok ()), .published (.ok (.stored 0)), .reopened (.ok ()),
        .published (.err (.storageLimitExceeded 38 100))] := by
  decide +kernel

/-! ## Attempts -/

section Attempts

variable {bc : Bincode} {qm : QueueManager} {q : String} {tag : DeliveryTag} {m : Message}

/-- The store a nack puts a message into. -/
def returnRole (cap : Option UInt32) (m : Message) : Role :=
  if exhausted cap m.retried.deliveryAttempts then .deadLetter else .ready

/-- A nack moves the message in one batch. -/
theorem nack_log {value : Bytes} (registered : q.utf8 ∈ (qm.db.trees metaQueuesTree).keys)
    (found : (qm.db.trees (inflightTreeName q)).get tag.toBeBytes = some value)
    (decoded : bc.message.decode value = .ok m) (ids : Nat → UInt64) (clock : Nat → Int64) :
    (exec ids clock (nack bc q tag) qm).1 = .ok () ∧
      (exec ids clock (nack bc q tag) qm).2.db.log = qm.db.log ++
        [[.remove (inflightTreeName q) tag.toBeBytes,
          .insert ((returnRole (policyRead bc qm.db q).maxDeliveryAttempts m).treeName q)
            (encodeKey m.priority (ids qm.db.drawn)) (bc.message.encode m.retried)]] := by
  obtain ⟨mark, present⟩ := OrdMap.mem_keys.mp registered
  let policy := policyRead bc qm.db q
  have committed (newId : UInt64) :
      (returnTx bc q policy tag newId).run qm.db.trees [] = some ((),
        [.remove (inflightTreeName q) tag.toBeBytes,
          .insert ((returnRole policy.maxDeliveryAttempts m).treeName q)
            (encodeKey m.priority newId) (bc.message.encode m.retried)]) := by
    have counted : m.retried.deliveryAttempts = m.deliveryAttempts + 1 := rfl
    rw [returnTx, Sled.Tx.run, found, returnRole, counted]
    simp only [decoded]
    split_ifs <;> rfl
  have run : (nack bc q tag).run (handle ids) ⟨qm, clock⟩ =
      (.ok (), (Machine.mk qm clock).draw.commit
        [.remove (inflightTreeName q) tag.toBeBytes,
          .insert ((returnRole policy.maxDeliveryAttempts m).treeName q)
            (encodeKey m.priority (ids qm.db.drawn)) (bc.message.encode m.retried)]) := by
    rw [nack, run_requireQueue_found ids ⟨qm, clock⟩ _ (congrArg Option.isSome present),
      run_policyOf_read, run_openTree, run_openTree, run_openTree, run_generateId,
      run_transaction_commit ids _ _ (committed _)]
    rfl
  rw [exec, run]
  exact ⟨rfl, rfl⟩

/-- The message comes back with one more attempt, as dead letter exactly when the cap says so. -/
def NackExact (bc : Bincode) (ids : Nat → UInt64) (clock : Nat → Int64) (qm : QueueManager)
    (q : String) (tag : DeliveryTag) (m : Message) : Prop :=
  ∃ (m' : Message) (role : Role),
    m' = { m with deliveryAttempts := m'.deliveryAttempts } ∧
    m'.deliveryAttempts.toNat = m.deliveryAttempts.toNat + 1 ∧
    (role = .deadLetter ∨ role = .ready) ∧
    (role = .deadLetter ↔ ∃ k, (policyRead bc qm.db q).maxDeliveryAttempts = some k ∧
      0 < k.toNat ∧ k.toNat ≤ m.deliveryAttempts.toNat + 1) ∧
    (exec ids clock (nack bc q tag) qm).2.db.log = qm.db.log ++
      [[.remove (inflightTreeName q) tag.toBeBytes,
        .insert (role.treeName q) (encodeKey m.priority (ids qm.db.drawn))
          (bc.message.encode m')]]

theorem exhausted_iff (cap : Option UInt32) (attempts : UInt32) :
    exhausted cap attempts = true ↔ ∃ k, cap = some k ∧ 0 < k.toNat ∧ k.toNat ≤ attempts.toNat := by
  cases cap with
  | none => simp [exhausted]
  | some k => simp [exhausted, UInt32.lt_iff_toNat_lt, UInt32.le_iff_toNat_le]

/-- For every message and every cap, a nack counts exactly as long as the counter does not
    start over. -/
theorem nack_exact_iff (bc : Bincode) (ids : Nat → UInt64) (clock : Nat → Int64)
    (qm : QueueManager) (q : String) (registered : q.utf8 ∈ (qm.db.trees metaQueuesTree).keys)
    (tag : DeliveryTag) {value : Bytes} {m : Message}
    (found : (qm.db.trees (inflightTreeName q)).get tag.toBeBytes = some value)
    (decoded : bc.message.decode value = .ok m) :
    (exec ids clock (nack bc q tag) qm).1 = .ok () ∧
      (NackExact bc ids clock qm q tag m ↔ m.deliveryAttempts.toNat + 1 < 2 ^ 32) := by
  obtain ⟨ok, log⟩ := nack_log registered found decoded ids clock
  refine ⟨ok, ?_⟩
  have next : m.retried.deliveryAttempts.toNat = (m.deliveryAttempts.toNat + 1) % 2 ^ 32 := by
    rw [Message.retried, UInt32.toNat_add]
    rfl
  constructor
  · rintro ⟨m', role, -, counted, -, -, log'⟩
    have same := List.append_cancel_left (log.symm.trans log')
    have encoded : bc.message.encode m.retried = bc.message.encode m' := by
      injection same with batch
      injection batch with _ rest
      injection rest with write
      injection write
    have message : m.retried = m' := bc.message.encode_injective encoded
    have fits := m'.deliveryAttempts.toNat_lt
    omega
  · intro fits
    rw [Nat.mod_eq_of_lt fits] at next
    refine ⟨m.retried, returnRole (policyRead bc qm.db q).maxDeliveryAttempts m, rfl, next, ?_, ?_, log⟩
    · unfold returnRole
      split_ifs
      · exact .inl rfl
      · exact .inr rfl
    · rw [← next, ← exhausted_iff, returnRole]
      split_ifs with reached <;> simp [reached]

end Attempts

/-- A message that was delivered this often, in flight in a queue that allows three attempts. -/
def attemptedManager (attempts : UInt32) : QueueManager :=
  final bincode (counter 0) (started bincode (counter 0) none)
    [⟨.declareQueueWithRetention "q" { maxDeliveryAttempts := some 3 }, fun _ => 0⟩,
      ⟨.publish "q" { probe with deliveryAttempts := attempts }, fun _ => 0⟩,
      ⟨.consume "q", fun _ => 0⟩]

theorem attempted_twice : NackExact bincode (counter 0) (fun _ => 0) (attemptedManager 2) "q" 0
    { probe with deliveryAttempts := 2 } := by
  refine (nack_exact_iff bincode (counter 0) (fun _ => 0) (attemptedManager 2) "q" ?_ 0 ?_
    (bincode.message.decode_encode _)).2.mpr (by decide)
  · decide +kernel
  · decide +kernel

/-- At the top of the counter a message that has failed four thousand million times is ready
    again, as if it had never been delivered. -/
theorem attempted_endlessly :
    (exec (counter 0) (fun _ => 0) (nack bincode "q" 0) (attemptedManager 4294967295)).1 = .ok () ∧
      ((exec (counter 0) (fun _ => 0) (nack bincode "q" 0)
        (attemptedManager 4294967295)).2.db.trees "q").values = [bincode.message.encode probe] ∧
      ((exec (counter 0) (fun _ => 0) (nack bincode "q" 0)
        (attemptedManager 4294967295)).2.db.trees (dlqTreeName "q")).values = [] := by
  decide +kernel

end PelicanQ
