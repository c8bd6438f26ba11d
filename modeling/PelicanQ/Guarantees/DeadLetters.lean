import PelicanQ.Broker.Contents
import PelicanQ.Broker.Places

/-! # When messages are dead-lettered

The delivery counter is a field of the message, so it goes wherever the message
goes and only a nack writes it.  To say that it counts the nacks of that message,
a message is followed through the events of a run: an entry of a tree stays, is
moved with its bytes unchanged, or is replaced by what a nack of its tag puts in.
-/

namespace PelicanQ

/-- An event takes one entry to another, with a number of nacks. -/
inductive Carries (q : String) (e : Event) : Item → Item → Nat → Prop where
  | kept {x : Item} (before : Holds e.before q x) (after : Holds e.after q x) : Carries q e x x 0
  | moved {x y : Item} (same : y.value = x.value) (before : Holds e.before q x)
      (left : ¬ Holds e.after q x) (new : ¬ Holds e.before q y) (after : Holds e.after q y) :
      Carries q e x y 0
  | nacked {tag : DeliveryTag} {value : Bytes} {y : Item} (nack : e.step.op = .nack q tag)
      (done : e.response = .nacked (.ok ()))
      (before : Holds e.before q ⟨.inflight, tag.toBeBytes, value⟩) (new : ¬ Holds e.before q y)
      (after : Holds e.after q y) : Carries q e ⟨.inflight, tag.toBeBytes, value⟩ y 1

/-- The entry is a published message after a number of nacks. -/
inductive Traced (q : String) : List Event → Item → Message → Nat → Prop where
  | published {past : List Event} {e : Event} {m : Message} {x : Item}
      (publish : e.step.op = .publish q m) (stored : e.response = .published (.ok (.stored m.id)))
      (new : ¬ Holds e.before q x) (after : Holds e.after q x) : Traced q (past ++ [e]) x m 0
  | carried {past : List Event} {e : Event} {m : Message} {x y : Item} {n k : Nat}
      (traced : Traced q past x m n) (carries : Carries q e x y k) :
      Traced q (past ++ [e]) y m (n + k)

theorem Traced.last {q : String} {past : List Event} {e : Event} {m : Message} {y : Item} {n : Nat}
    (traced : Traced q (past ++ [e]) y m n) :
    (e.step.op = .publish q m ∧ e.response = .published (.ok (.stored m.id)) ∧
      ¬ Holds e.before q y ∧ Holds e.after q y ∧ n = 0) ∨
    ∃ x n' k, Traced q past x m n' ∧ Carries q e x y k ∧ n = n' + k := by
  generalize all : past ++ [e] = events at traced
  cases traced with
  | published publish stored new after =>
      obtain ⟨rfl, one⟩ := List.append_inj' all rfl
      cases one
      exact .inl ⟨publish, stored, new, after, rfl⟩
  | carried traced carries =>
      obtain ⟨rfl, one⟩ := List.append_inj' all rfl
      cases one
      exact .inr ⟨_, _, _, traced, carries, rfl⟩

theorem Traced.not_nil {q : String} {m : Message} {y : Item} {n : Nat} : ¬ Traced q [] y m n := by
  generalize none : ([] : List Event) = events
  intro traced
  cases traced <;> simp at none

/-! ## The counter and the policy -/

/-- The counter is below the limit of the policy, and at the limit for a dead letter. -/
def Place.Counts (policy : RetentionPolicy) : Place → Message → Prop
  | .deadLetter _, m => ∃ k, policy.maxDeliveryAttempts = some k ∧ 0 < k ∧ m.deliveryAttempts = k
  | _, m => ∀ k, policy.maxDeliveryAttempts = some k → 0 < k → m.deliveryAttempts < k

theorem Move.puts_counts {st : QueueState} (counts : st.Each (Place.Counts st.policy)) {mv : Move}
    (enabled : mv.Enabled st) (unattempted : ∀ m due, mv = .store m due → m.deliveryAttempts = 0)
    {id : UInt64} {place : Place} {m : Message} (puts : mv.puts st.policy id = some (place, m)) :
    place.Counts st.policy m := by
  cases mv with
  | store m due =>
      have zero : m.deliveryAttempts = 0 := unattempted m due rfl
      cases due <;> cases puts <;> exact fun k _ positive => zero ▸ positive
  | record | settle | discard => cases puts
  | deliver key m =>
      cases puts
      exact counts (.ready key) m enabled
  | promote key m =>
      cases puts
      exact counts (.scheduled key) m enabled
  | requeue tag m =>
      cases puts
      exact counts (.inflight tag) m enabled
  | retry tag m =>
      have below : ∀ k, st.policy.maxDeliveryAttempts = some k → 0 < k → m.deliveryAttempts < k :=
        counts (.inflight tag) m enabled
      -- the counter is below some counter, so the sum does not wrap
      have next {k : UInt32} (less : m.deliveryAttempts < k) :
          m.retried.deliveryAttempts.toNat = m.deliveryAttempts.toNat + 1 := by
        have small := k.toNat_lt
        rw [UInt32.lt_iff_toNat_lt] at less
        rw [Message.retried, UInt32.toNat_add, UInt32.toNat_one, Nat.mod_eq_of_lt (by omega)]
      simp only [Move.puts] at puts
      cases limit : st.policy.maxDeliveryAttempts with
      | none =>
          simp only [limit, QueueManager.exhausted, Bool.false_eq_true, if_false] at puts
          cases puts
          intro k none
          cases limit.symm.trans none
      | some max =>
          simp only [limit, QueueManager.exhausted, decide_eq_true_eq] at puts
          split_ifs at puts with last
          · cases puts
            refine ⟨max, limit, last.1, ?_⟩
            have less := below max limit last.1
            have counter := next less
            have reached := last.2
            rw [UInt32.le_iff_toNat_le] at reached
            rw [UInt32.lt_iff_toNat_lt] at less
            exact UInt32.toNat_inj.mp (by omega)
          · cases puts
            intro k same positive
            rw [limit, Option.some.injEq] at same
            subst same
            exact UInt32.not_le.mp fun reached => last ⟨positive, reached⟩

theorem Transition.counts {ids : Nat → UInt64} {b b' : Broker} {op : Operation} {r : Response}
    {moves : List (String × Move)} (step : Transition ids b op r moves b') {q : String}
    (unattempted : ∀ m, op = .publish q m → m.deliveryAttempts = 0)
    (counts : ∀ st, b.queue q = some st → st.Each (Place.Counts st.policy)) :
    ∀ st, b'.queue q = some st → st.Each (Place.Counts st.policy) := by
  refine step.path.queue_rule q
    (P := fun queue => ∀ st, queue = some st → st.Each (Place.Counts st.policy))
    (fun _ policy st same => by cases same; exact .fresh policy) ?_ counts
  intro st mv id member enabled each st' same place m present
  cases same
  rw [QueueState.move, QueueState.policy_changes]
  rcases QueueState.lookup_moved present with puts | ⟨-, old⟩
  · refine Move.puts_counts (each st rfl) enabled (fun m due stores => ?_) puts
    subst stores
    -- only a publish stores
    cases step with
    | stored path others =>
        rcases List.mem_cons.mp member with first | later
        · cases first
          exact unattempted m rfl
        · obtain ⟨mv, inside, same⟩ := List.mem_map.mp later
          cases same
          obtain ⟨key, time, impossible⟩ := others _ inside
          cases impossible
    | «exists» | declared | notFound | deduplicated | limited | nothing | invalidAck | invalidNack =>
        cases member
    | delivered | acked | nacked => cases List.mem_singleton.mp member
    | promoted | retained =>
        obtain ⟨e, -, same⟩ := List.mem_map.mp member
        cases same
    | reopened _ requeues =>
        obtain ⟨tag, m, same⟩ := requeues _ member
        cases same
  · exact each st rfl place m old

/-- A dead letter stays: no move takes it, and a later one has another id. -/
theorem Path.deadLetter {ids : Nat → UInt64} {b b' : Broker} {moves : List (String × Move)}
    (path : Path ids b moves b') (sound : b.Sound ids)
    (increasing : StrictMonoOn ids (Set.Iio b'.drawn)) {q : String} {key : ReadyKey} {m : Message}
    (has : b.Has q (.deadLetter key) m) : b'.Has q (.deadLetter key) m := by
  induction path with
  | done => exact has
  | idle queues drawn _ ih =>
      refine ih (sound.idle queues drawn) increasing ?_
      rwa [Broker.Has, Broker.queue, queues]
  | @declare b _ name policy _ undeclared _ ih =>
      refine ih (sound.declare name policy) increasing ?_
      obtain ⟨st, declared, present⟩ := has
      refine ⟨st, ?_, present⟩
      have different : q ≠ name := by
        rintro rfl
        rw [undeclared] at declared
        cases declared
      rw [Broker.queue, OrdMap.get_insert, if_neg fun eq => different (String.utf8_injective eq)]
      exact declared
  | @move b b' name st mv _ declared enabled more ih =>
      have upTo := increasing.mono (Set.Iio_subset_Iio more.drawn_le)
      refine ih (sound.move declared enabled upTo) increasing ?_
      by_cases same : q = name
      · subst same
        rw [Broker.has_iff declared] at has
        rw [Broker.has_iff (Broker.move_queue declared mv), QueueState.lookup_move]
        rw [Broker.move_drawn declared] at upTo
        have kept : (mv.puts st.policy (ids b.drawn)).map Prod.fst ≠ some (.deadLetter key) := by
          cases mv with
          | retry tag m' =>
              have absent := (sound.queues q st declared).fresh_deadLetter
                (fun i below => upTo (by simp [Move.draws]; omega) (by simp [Move.draws]) below)
                m'.priority
              simp only [Move.puts]
              split_ifs
              · intro put
                cases put
                exact absent (OrdMap.mem_keys.mpr ⟨m, has⟩)
              · rintro ⟨⟩
          | store m' due =>
              cases due <;> rintro ⟨⟩
          | record | deliver | settle | promote | discard | requeue => rintro ⟨⟩
        rw [if_neg kept, if_neg]
        · exact has
        · cases mv <;> rintro ⟨⟩
      · obtain ⟨st', declared', present⟩ := has
        exact ⟨st', (Broker.move_queue_other b same mv).trans declared', present⟩

/-! ## Runs -/

section Steps

variable {bc : Bincode} {ids : Nat → UInt64} {e : Event} {b b' : Broker}
  {moves : List (String × Move)} {q : String} {past : List Event}

/-- Every message held after an event can be followed, if every message before it can. -/
theorem Simulates.traced (sim : Simulates bc ids e b moves b')
    (traced : ∀ place m', b.Has q place m' → ∃ m n, Traced q past (place.item bc m') m n)
    (place : Place) (m' : Message) (has : b'.Has q place m') :
    ∃ m n, Traced q (past ++ [e]) (place.item bc m') m n := by
  have after : Holds e.after q (place.item bc m') := sim.after.holds.mpr ⟨place, m', rfl, has⟩
  have before {place : Place} {m : Message} (has : b.Has q place m) :
      Holds e.before q (place.item bc m) := sim.before.holds.mpr ⟨place, m, rfl, has⟩
  by_cases old : b.Has q place m'
  · obtain ⟨m, n, followed⟩ := traced place m' old
    exact ⟨m, n, .carried followed (.kept (before old) after)⟩
  · have new : ¬ Holds e.before q (place.item bc m') := by
      intro held
      obtain ⟨place', m, same, has⟩ := sim.before.holds.mp held
      obtain ⟨rfl, rfl⟩ := Place.item_inj same
      exact old has
    cases sim.step.origin has with
    | kept old' => exact absurd old' old
    | published publish stored => exact ⟨m', 0, .published publish stored new after⟩
    | @nacked tag m₀ nack done source =>
        obtain ⟨m, n, followed⟩ := traced (.inflight tag) m₀ source
        exact ⟨m, n + 1, .carried followed (.nacked nack done (before source) new after)⟩
    | moved from_ _ _ source left =>
        obtain ⟨m, n, followed⟩ := traced from_ m' source
        have carries : Carries q e (from_.item bc m') (place.item bc m') 0 := by
          refine .moved rfl (before source) (fun held => ?_) new after
          obtain ⟨place', m'', same, has'⟩ := sim.after.holds.mp held
          obtain ⟨rfl, rfl⟩ := Place.item_inj same
          exact left has'
        exact ⟨m, n, .carried followed carries⟩

/-- The message after a number of nacks. -/
def Message.nacked (m : Message) (n : Nat) : Message :=
  { m with deliveryAttempts := UInt32.ofNat n }

theorem Message.nacked_succ (m : Message) (n : Nat) : (m.nacked n).retried = m.nacked (n + 1) := by
  rw [Message.nacked, Message.retried, Message.nacked, UInt32.ofNat_add]
  rfl

/-- A followed message is held, and its counter is the number of its nacks. -/
def Followed (bc : Bincode) (q : String) (b : Broker) (x : Item) (m : Message) (n : Nat) : Prop :=
  ∃ st place, b.queue q = some st ∧ x = place.item bc (m.nacked n) ∧
    st.lookup place = some (m.nacked n) ∧
    ∀ k, st.policy.maxDeliveryAttempts = some k → 0 < k → n ≤ k.toNat

theorem Simulates.counted (sim : Simulates bc ids e b moves b')
    (unattempted : ∀ m, e.step.op = .publish q m → m.deliveryAttempts = 0)
    (counts : ∀ st, b.queue q = some st → st.Each (Place.Counts st.policy))
    (counted : ∀ x m n, Traced q past x m n → Followed bc q b x m n) {y : Item} {m : Message} {n : Nat}
    (traced : Traced q (past ++ [e]) y m n) : Followed bc q b' y m n := by
  rcases traced.last with ⟨publish, -, new, after, rfl⟩ | ⟨x, n, k, earlier, carries, rfl⟩
  · obtain ⟨place, m', rfl, has⟩ := sim.after.holds.mp after
    have stored : m' = m.nacked 0 := by
      have zero : m.nacked 0 = m := by
        have counter : UInt32.ofNat 0 = m.deliveryAttempts := (unattempted m publish).symm
        rw [Message.nacked, counter]
      cases sim.step.origin has with
      | kept old => exact absurd (sim.before.holds.mpr ⟨place, m', rfl, old⟩) new
      | published publish' =>
          rw [publish] at publish'
          cases publish'
          exact zero.symm
      | nacked nack => cases publish.symm.trans nack
      | moved from_ notPublish => exact absurd publish (notPublish m)
    subst stored
    obtain ⟨st, declared, present⟩ := has
    exact ⟨st, place, declared, rfl, present, fun _ _ _ => Nat.zero_le _⟩
  · obtain ⟨st, place, declared, same, present, bound⟩ := counted x m n earlier
    obtain ⟨st', declared', policy⟩ := sim.step.path.policy declared
    -- an entry held afterwards, once its message is known
    have found {y : Item} {n' : Nat} (after : Holds e.after q y)
        (value : y.value = bc.message.encode (m.nacked n'))
        (bound : ∀ k, st'.policy.maxDeliveryAttempts = some k → 0 < k → n' ≤ k.toNat) :
        Followed bc q b' y m n' := by
      obtain ⟨place', m', rfl, has⟩ := sim.after.holds.mp after
      have message : m' = m.nacked n' := bc.message.encode_injective value
      subst message
      exact ⟨st', place', declared', rfl, (Broker.has_iff declared').mp has, bound⟩
    cases carries with
    | kept _ after => exact found after (same ▸ rfl) (policy ▸ bound)
    | moved unchanged _ _ _ after =>
        exact found after (unchanged.trans (same ▸ rfl)) (policy ▸ bound)
    | @nacked tag value y nack done before new after =>
        obtain ⟨place', m', rfl, has⟩ := sim.after.holds.mp after
        have tagged : place = .inflight tag ∧ value = bc.message.encode (m.nacked n) := by
          refine ⟨?_, congrArg Item.value same⟩
          have role : (Place.inflight tag).role = place.role := congrArg Item.role same
          have key : tag.toBeBytes = place.bytes := congrArg Item.key same
          cases place with
          | inflight tag' => exact congrArg _ (UInt64.toBeBytes_strictMono.injective key).symm
          | ready | deadLetter | scheduled => cases role
        obtain ⟨rfl, -⟩ := tagged
        have returned : m' = m.nacked (n + 1) := by
          cases sim.step.origin has with
          | kept old => exact absurd (sim.before.holds.mpr ⟨place', m', rfl, old⟩) new
          | published publish => cases nack.symm.trans publish
          | nacked nack' _ source =>
              rw [nack] at nack'
              cases nack'
              rw [Broker.has_iff declared, present, Option.some.injEq] at source
              rw [← source, Message.nacked_succ]
          | moved from_ _ notNack => exact absurd nack (notNack tag)
        refine found after (congrArg bc.message.encode returned) ?_
        intro k limit positive
        rw [policy] at limit
        have small := k.toNat_lt
        have upTo := bound k limit positive
        have below : UInt32.ofNat n < k := counts st declared (.inflight tag) _ present k limit positive
        rw [UInt32.lt_iff_toNat_lt, UInt32.toNat_ofNat_of_lt' (by simp only [UInt32.size]; omega)]
          at below
        exact below

/-- The message of a nack that succeeds. -/
theorem Simulates.nackedCounter (sim : Simulates bc ids e b moves b') {tag : DeliveryTag}
    (nack : e.step.op = .nack q tag) (done : e.response = .nacked (.ok ())) :
    ∃ st m, b.queue q = some st ∧ st.inflight.get tag = some m ∧
      (e.before.db.trees (inflightTreeName q)).get tag.toBeBytes = some (bc.message.encode m) := by
  have step := sim.step
  rw [nack, done] at step
  cases step with
  | @nacked _ _ st m declared present =>
      refine ⟨st, m, declared, present, ?_⟩
      rw [show e.before.db.trees (inflightTreeName q) = _ from
        sim.before.held.stores q st declared .inflight, st.get_inflight, present]
      rfl
  | notFound missing => cases missing

end Steps

/-- What a run up to here says about the counters of a queue. -/
structure Attempts (bc : Bincode) (q : String) (past : List Event) (b : Broker) : Prop where
  counts : ∀ st, b.queue q = some st → st.Each (Place.Counts st.policy)
  traced : ∀ place m', b.Has q place m' → ∃ m n, Traced q past (place.item bc m') m n
  followed : ∀ x m n, Traced q past x m n → Followed bc q b x m n
  fits : ∀ e ∈ past, ∀ tag value m, e.step.op = .nack q tag → e.response = .nacked (.ok ()) →
    (e.before.db.trees (inflightTreeName q)).get tag.toBeBytes = some value →
    bc.message.decode value = .ok m → ∃ st, b.queue q = some st ∧
      ∀ k, st.policy.maxDeliveryAttempts = some k → 0 < k → m.deliveryAttempts < k
  stays : ∀ e ∈ past, ∀ x, x.role = .deadLetter → Holds e.after q x →
    ∃ key m, x = (Place.deadLetter key).item bc m ∧ b.Has q (.deadLetter key) m
  declared : ∀ e ∈ past, ∀ policy, e.step.op = .declareQueueWithRetention q policy →
    e.response = .declared (.ok ()) → ∃ st, b.queue q = some st ∧ st.policy = policy

theorem attempts_empty (bc : Bincode) (q : String) (maxBytes : Option UInt64) :
    Attempts bc q [] (emptyBroker maxBytes) where
  counts _ declared := nomatch declared
  traced _ _ := fun ⟨_, declared, _⟩ => nomatch declared
  followed _ _ _ traced := absurd traced Traced.not_nil
  fits _ member := (List.not_mem_nil member).elim
  stays _ member := (List.not_mem_nil member).elim
  declared _ member := (List.not_mem_nil member).elim

theorem Attempts.next {bc : Bincode} {ids : Nat → UInt64} {q : String} {past : List Event}
    {e : Event} {b b' : Broker} {moves : List (String × Move)} (attempts : Attempts bc q past b)
    (sim : Simulates bc ids e b moves b')
    (unattempted : ∀ m, e.step.op = .publish q m → m.deliveryAttempts = 0) :
    Attempts bc q (past ++ [e]) b' where
  counts := sim.step.counts unattempted attempts.counts
  traced := sim.traced attempts.traced
  followed _ _ _ traced := sim.counted unattempted attempts.counts attempts.followed traced
  fits e' member tag value m nack done found decodes := by
    have here : ∃ st, b.queue q = some st ∧
        ∀ k, st.policy.maxDeliveryAttempts = some k → 0 < k → m.deliveryAttempts < k := by
      rcases List.mem_append.mp member with old | new
      · exact attempts.fits e' old tag value m nack done found decodes
      · rw [List.mem_singleton.mp new] at nack done found
        obtain ⟨st, m', declared, present, stored⟩ := sim.nackedCounter nack done
        rw [stored, Option.some.injEq] at found
        rw [← found, bc.message.decode_encode, Except.ok.injEq] at decodes
        subst decodes
        exact ⟨st, declared, attempts.counts st declared (.inflight tag) m' present⟩
    obtain ⟨st, declared, below⟩ := here
    obtain ⟨st', declared', policy⟩ := sim.step.path.policy declared
    exact ⟨st', declared', policy ▸ below⟩
  stays e' member x role held := by
    rcases List.mem_append.mp member with old | new
    · obtain ⟨key, m, same, has⟩ := attempts.stays e' old x role held
      exact ⟨key, m, same, sim.step.path.deadLetter sim.sound sim.increasing has⟩
    · rw [List.mem_singleton.mp new] at held
      obtain ⟨place, m, rfl, has⟩ := sim.after.holds.mp held
      cases place with
      | deadLetter key => exact ⟨key, m, rfl, has⟩
      | ready | inflight | scheduled => cases role
  declared e' member policy declares done := by
    rcases List.mem_append.mp member with old | new
    · obtain ⟨st, declared, same⟩ := attempts.declared e' old policy declares done
      obtain ⟨st', declared', policy'⟩ := sim.step.path.policy declared
      exact ⟨st', declared', policy'.trans same⟩
    · have step := sim.step
      rw [List.mem_singleton.mp new] at declares done
      rw [declares, done] at step
      cases step with
      | declared undeclared =>
          refine ⟨.fresh policy, ?_, rfl⟩
          rw [Broker.queue, OrdMap.get_insert, if_pos rfl]
      | notFound missing => cases missing

/-- A message is dead-lettered by the nack that reaches the limit of its queue, and by no other. -/
theorem dead_letter_threshold (bc : Bincode) (ids : Nat → UInt64) (maxBytes : Option UInt64)
    (steps : List Step) (apart : NonColliding (declaredNames steps))
    (increasing : Increasing ids (final bc ids (started bc ids maxBytes) steps)) (q : String)
    (policy : RetentionPolicy)
    (declared : ∃ e ∈ events bc ids (started bc ids maxBytes) steps,
      e.step.op = .declareQueueWithRetention q policy ∧ e.response = .declared (.ok ()))
    (unattempted : ∀ step ∈ steps, ∀ m, step.op = .publish q m → m.deliveryAttempts = 0) :
    (∀ k, policy.maxDeliveryAttempts = some k → 0 < k →
      (∀ x, Holds (final bc ids (started bc ids maxBytes) steps) q x →
        ∃ m n, Traced q (events bc ids (started bc ids maxBytes) steps) x m n) ∧
      (∀ x m n, Traced q (events bc ids (started bc ids maxBytes) steps) x m n →
        n ≤ k.toNat ∧
        bc.message.decode x.value = .ok { m with deliveryAttempts := UInt32.ofNat n } ∧
        (x.role = .deadLetter ↔ n = k.toNat)) ∧
      (∀ e ∈ events bc ids (started bc ids maxBytes) steps,
        ∀ x, x.role = .deadLetter → Holds e.after q x →
          Holds (final bc ids (started bc ids maxBytes) steps) q x) ∧
      ∀ e ∈ events bc ids (started bc ids maxBytes) steps, ∀ tag value m,
        e.step.op = .nack q tag → e.response = .nacked (.ok ()) →
        (e.before.db.trees (inflightTreeName q)).get tag.toBeBytes = some value →
        bc.message.decode value = .ok m → m.deliveryAttempts.toNat + 1 < 2 ^ 32) ∧
    (policy.maxDeliveryAttempts = none ∨ policy.maxDeliveryAttempts = some 0 →
      ((final bc ids (started bc ids maxBytes) steps).db.trees (dlqTreeName q)).entries = []) := by
  obtain ⟨b, refines, -, inv⟩ := run_invariant bc ids maxBytes
    (fun past b => (∀ e ∈ past, ∀ m, e.step.op = .publish q m → m.deliveryAttempts = 0) →
      Attempts bc q past b)
    (fun _ => attempts_empty bc q maxBytes)
    (fun past e b moves b' inv sim all =>
      (inv fun e' member => all e' (List.mem_append_left _ member)).next sim
        (all e (List.mem_append_right _ (List.mem_singleton_self e))))
    steps apart increasing
  have attempts := inv fun e member m publish => unattempted e.step
    (events_steps bc ids (started bc ids maxBytes) steps ▸ List.mem_map_of_mem member) m publish
  obtain ⟨e, member, declares, done⟩ := declared
  obtain ⟨st, here, rfl⟩ := attempts.declared e member policy declares done
  refine ⟨fun k limit positive => ⟨?_, ?_, ?_, ?_⟩, fun unlimited => ?_⟩
  · intro x held
    obtain ⟨place, m', rfl, has⟩ := refines.holds.mp held
    exact attempts.traced place m' has
  · intro x m n traced
    obtain ⟨st', place, here', rfl, present, bound⟩ := attempts.followed x m n traced
    rw [here, Option.some.injEq] at here'
    subst here'
    have small := k.toNat_lt
    have upTo := bound k limit positive
    have counter : (UInt32.ofNat n).toNat = n :=
      UInt32.toNat_ofNat_of_lt' (by simp only [UInt32.size]; omega)
    refine ⟨upTo, bc.message.decode_encode _, ?_⟩
    have counts := attempts.counts st here place _ present
    have below (outside : UInt32.ofNat n < k) : n ≠ k.toNat := by
      rw [UInt32.lt_iff_toNat_lt, counter] at outside
      exact outside.ne
    cases place with
    | deadLetter key =>
        obtain ⟨k', limit', -, reached⟩ := counts
        rw [limit, Option.some.injEq] at limit'
        subst limit'
        refine iff_of_true rfl ?_
        rw [← counter]
        exact congrArg UInt32.toNat reached
    | ready | inflight | scheduled => exact iff_of_false nofun (below (counts k limit positive))
  · intro e' member' x role held
    obtain ⟨key, m, same, has⟩ := attempts.stays e' member' x role held
    exact refines.holds.mpr ⟨_, m, same, has⟩
  · intro e' member' tag value m nack done' found decodes
    obtain ⟨st', here', below⟩ := attempts.fits e' member' tag value m nack done' found decodes
    rw [here, Option.some.injEq] at here'
    subst here'
    have less := below k limit positive
    have small := k.toNat_lt
    rw [UInt32.lt_iff_toNat_lt] at less
    omega
  · rw [show (final bc ids (started bc ids maxBytes) steps).db.trees (dlqTreeName q) = _ from
      refines.held.stores q st here .deadLetter, QueueState.tree, OrdMap.image_entries,
      List.map_eq_nil_iff, List.eq_nil_iff_forall_not_mem]
    intro e' member'
    obtain ⟨k, limit, positive, -⟩ := attempts.counts st here (.deadLetter e'.1) e'.2
      (OrdMap.get_eq_some.mpr member')
    rcases unlimited with none | zero
    · cases none.symm.trans limit
    · rw [zero, Option.some.injEq] at limit
      subst limit
      exact absurd positive (by decide)

/-- The dead letters of `q` are the ready messages of `dlq:q`. -/
def neighbourRun : List Step :=
  [⟨.declareQueueWithRetention "q" { maxDeliveryAttempts := some 2 }, fun _ => 0⟩,
    ⟨.declareQueueWithRetention "dlq:q" default, fun _ => 0⟩,
    ⟨.publish "dlq:q" ⟨1, [], [], 0, 0, 0, none, none⟩, fun _ => 0⟩]

theorem unattempted_dead_letter : ∃ x, x.role = .deadLetter ∧
    Holds (final bincode (counter 0) (started bincode (counter 0) none) neighbourRun) "q" x ∧
    bincode.message.decode x.value = .ok ⟨1, [], [], 0, 0, 0, none, none⟩ := by
  refine ⟨⟨.deadLetter, encodeKey 0 0, bincode.message.encode ⟨1, [], [], 0, 0, 0, none, none⟩⟩, rfl,
    ⟨?_, nofun, ?_⟩, ?_⟩
  · decide +kernel
  · decide +kernel
  · decide +kernel

/-- A message that is nacked twice, once across a restart. -/
def retriedRun : List Step :=
  [⟨.declareQueueWithRetention "q" { maxDeliveryAttempts := some 2 }, fun _ => 0⟩,
    ⟨.publish "q" ⟨1, [], [], 0, 0, 0, none, none⟩, fun _ => 0⟩,
    ⟨.consume "q", fun _ => 0⟩,
    ⟨.nack "q" 0, fun _ => 0⟩,
    ⟨.consume "q", fun _ => 0⟩,
    ⟨.reopen none, fun _ => 0⟩,
    ⟨.consume "q", fun _ => 0⟩,
    ⟨.nack "q" 2, fun _ => 0⟩]

theorem retriedRun_threshold : ∃ x m,
    Holds (final bincode (counter 0) (started bincode (counter 0) none) retriedRun) "q" x ∧
    x.role = .deadLetter ∧
    Traced "q" (events bincode (counter 0) (started bincode (counter 0) none) retriedRun) x m 2 := by
  have drawn : (final bincode (counter 0) (started bincode (counter 0) none) retriedRun).db.drawn =
      4 := by
    decide +kernel
  have results := (dead_letter_threshold bincode (counter 0) none retriedRun (by decide)
    (counter_increasing (by rw [drawn]; decide)) "q" { maxDeliveryAttempts := some 2 }
    ⟨_, List.mem_cons_self, rfl, by decide +kernel⟩ (by simp [retriedRun])).1 2 rfl (by decide)
  have held : Holds (final bincode (counter 0) (started bincode (counter 0) none) retriedRun) "q"
      ⟨.deadLetter, encodeKey 0 3, bincode.message.encode ⟨1, [], [], 0, 2, 0, none, none⟩⟩ :=
    ⟨by decide +kernel, nofun, by decide +kernel⟩
  obtain ⟨m, n, traced⟩ := results.1 _ held
  have twice : n = 2 := (results.2.1 _ m n traced).2.2.mp rfl
  exact ⟨_, m, held, rfl, twice ▸ traced⟩

end PelicanQ
