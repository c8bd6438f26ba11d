import PelicanQ.Broker.Script
import PelicanQ.Lib.Along

/-! # Twin queues

Two queues are twins when their ready, scheduled and dead-letter stores hold the
same messages in the same order, under keys that correspond.  Moves that match
keep them so; what they have in flight and what they recorded for deduplication
is related separately, since not every pair of queues to be compared agrees on
that.

`Links` is the correspondence, store by store: pairs of keys of one class whose
ids were handed out by two databases, in an order both agree on.
-/

namespace PelicanQ

/-- The ids that two sources hand out at the same time, from the `n`th and the `n'`th on. -/
def Drawn (ids ids' : Nat → UInt64) (n n' count : Nat) (id id' : UInt64) : Prop :=
  ∃ i < count, id = ids (n + i) ∧ id' = ids' (n' + i)

/-- A correspondence of keys made from the first `n` ids of one source and the first `n'` of
    another. -/
structure Linked {A : Type} [LinearOrder A] (ids ids' : Nat → UInt64) (n n' : Nat)
    (K : A ×ₗ UInt64 → A ×ₗ UInt64 → Prop) : Prop where
  ordered : Ordered K
  sameClass : ∀ k k', K k k' → (ofLex k).1 = (ofLex k').1
  drawn : ∀ k k', K k k' → ∃ i < n, (ofLex k).2 = ids i
  drawn' : ∀ k k', K k k' → ∃ j < n', (ofLex k').2 = ids' j

namespace Linked

variable {A : Type} [LinearOrder A] {ids ids' : Nat → UInt64} {n n' : Nat}
  {K : A ×ₗ UInt64 → A ×ₗ UInt64 → Prop}

theorem later (linked : Linked ids ids' n n' K) {k k' : Nat} (le : n ≤ k) (le' : n' ≤ k') :
    Linked ids ids' k k' K where
  ordered := linked.ordered
  sameClass := linked.sameClass
  drawn a a' both :=
    let ⟨i, below, same⟩ := linked.drawn a a' both
    ⟨i, below.trans_le le, same⟩
  drawn' a a' both :=
    let ⟨j, below, same⟩ := linked.drawn' a a' both
    ⟨j, below.trans_le le', same⟩

/-- Keys of one class that are made from the next ids correspond from now on. -/
theorem extend (linked : Linked ids ids' n n' K) {count : Nat}
    (increasing : StrictMonoOn ids (Set.Iio (n + count)))
    (increasing' : StrictMonoOn ids' (Set.Iio (n' + count))) :
    Linked ids ids' (n + count) (n' + count)
      fun k k' => K k k' ∨ SameClass A (Drawn ids ids' n n' count) k k' := by
  have below {i j : Nat} (old : i < n) (new : j < count) : ids i < ids (n + j) :=
    increasing (by simp; omega) (by simpa using new) (by omega)
  have below' {i j : Nat} (old : i < n') (new : j < count) : ids' i < ids' (n' + j) :=
    increasing' (by simp; omega) (by simpa using new) (by omega)
  refine ⟨?_, ?_, ?_, ?_⟩
  · rintro a a' (old | ⟨class_, i, less, id, id'⟩) b b' (old' | ⟨class', j, less', id₂, id₂'⟩)
    · exact linked.ordered old old'
    · obtain ⟨m, before, same⟩ := linked.drawn a a' old
      obtain ⟨m', before', same'⟩ := linked.drawn' a a' old
      have first := below before less'
      have first' := below' before' less'
      rw [Prod.Lex.lt_iff, Prod.Lex.lt_iff, linked.sameClass a a' old, class', same, same', id₂, id₂']
      simp only [first, first', and_true]
    · obtain ⟨m, before, same⟩ := linked.drawn b b' old'
      obtain ⟨m', before', same'⟩ := linked.drawn' b b' old'
      have last := lt_asymm (below before less)
      have last' := lt_asymm (below' before' less)
      rw [Prod.Lex.lt_iff, Prod.Lex.lt_iff, linked.sameClass b b' old', class_, same, same', id, id']
      simp only [last, last', and_false, or_false]
    · have order : ids (n + i) < ids (n + j) ↔ ids' (n' + i) < ids' (n' + j) := by
        rw [increasing.lt_iff_lt (by simpa using less) (by simpa using less'),
          increasing'.lt_iff_lt (by simpa using less) (by simpa using less')]
        omega
      rw [Prod.Lex.lt_iff, Prod.Lex.lt_iff, class_, class', id, id', id₂, id₂', order]
  · rintro a a' (old | ⟨class_, -⟩)
    · exact linked.sameClass a a' old
    · exact class_
  · rintro a a' (old | ⟨-, i, less, id, -⟩)
    · exact (linked.later (Nat.le_add_right n count) (Nat.le_refl n')).drawn a a' old
    · exact ⟨n + i, by omega, id⟩
  · rintro a a' (old | ⟨-, i, less, -, id'⟩)
    · exact (linked.later (Nat.le_refl n) (Nat.le_add_right n' count)).drawn' a a' old
    · exact ⟨n' + i, by omega, id'⟩

end Linked

/-- A correspondence of keys for each store. -/
structure Links where
  ready : ReadyKey → ReadyKey → Prop
  scheduled : DueKey → DueKey → Prop
  deadLetter : ReadyKey → ReadyKey → Prop

namespace Links

/-- Keys correspond when their ids do, in every store. -/
def ofIds (R : UInt64 → UInt64 → Prop) : Links :=
  ⟨SameClass UInt8 R, SameClass UInt64 R, SameClass UInt8 R⟩

/-- Keys made from ids handed out at the same time correspond, too. -/
def extend (ids ids' : Nat → UInt64) (n n' count : Nat) (L : Links) : Links where
  ready k k' := L.ready k k' ∨ SameClass UInt8 (Drawn ids ids' n n' count) k k'
  scheduled k k' := L.scheduled k k' ∨ SameClass UInt64 (Drawn ids ids' n n' count) k k'
  deadLetter k k' := L.deadLetter k k' ∨ SameClass UInt8 (Drawn ids ids' n n' count) k k'

/-- Tags of corresponding ready keys. -/
def tags (L : Links) (tag tag' : UInt64) : Prop :=
  ∃ k k', L.ready k k' ∧ ReadyKey.id k = tag ∧ ReadyKey.id k' = tag'

/-- Keys made from these ids correspond. -/
structure Joins (L : Links) (id id' : UInt64) : Prop where
  ready : ∀ priority, L.ready (readyKey priority id) (readyKey priority id')
  scheduled : ∀ deliverAt, L.scheduled (dueKey deliverAt id) (dueKey deliverAt id')
  deadLetter : ∀ priority, L.deadLetter (readyKey priority id) (readyKey priority id')

structure Valid (ids ids' : Nat → UInt64) (n n' : Nat) (L : Links) : Prop where
  ready : Linked ids ids' n n' L.ready
  scheduled : Linked ids ids' n n' L.scheduled
  deadLetter : Linked ids ids' n n' L.deadLetter

variable {ids ids' : Nat → UInt64} {n n' : Nat} {L : Links}

theorem Valid.none (ids ids' : Nat → UInt64) (n n' : Nat) :
    (ofIds fun _ _ => False).Valid ids ids' n n' := by
  have nothing {A : Type} [LinearOrder A] :
      Linked ids ids' n n' (SameClass A fun _ _ : UInt64 => False) :=
    ⟨fun _ _ both => both.2.elim, fun _ _ both => both.2.elim, fun _ _ both => both.2.elim,
      fun _ _ both => both.2.elim⟩
  exact ⟨nothing, nothing, nothing⟩

theorem Valid.later (valid : L.Valid ids ids' n n') {k k' : Nat} (le : n ≤ k) (le' : n' ≤ k') :
    L.Valid ids ids' k k' :=
  ⟨valid.ready.later le le', valid.scheduled.later le le', valid.deadLetter.later le le'⟩

theorem Valid.extend (valid : L.Valid ids ids' n n') {count : Nat}
    (increasing : StrictMonoOn ids (Set.Iio (n + count)))
    (increasing' : StrictMonoOn ids' (Set.Iio (n' + count))) :
    (L.extend ids ids' n n' count).Valid ids ids' (n + count) (n' + count) :=
  ⟨valid.ready.extend increasing increasing', valid.scheduled.extend increasing increasing',
    valid.deadLetter.extend increasing increasing'⟩

theorem extend_joins (L : Links) : (L.extend ids ids' n n' 1).Joins (ids n) (ids' n') := by
  have taken : Drawn ids ids' n n' 1 (ids n) (ids' n') := ⟨0, Nat.one_pos, rfl, rfl⟩
  exact ⟨fun _ => .inr ⟨rfl, taken⟩, fun _ => .inr ⟨rfl, taken⟩, fun _ => .inr ⟨rfl, taken⟩⟩

theorem sameClass_or {A : Type} {R S : UInt64 → UInt64 → Prop} (k k' : A ×ₗ UInt64) :
    SameClass A R k k' ∨ SameClass A S k k' ↔ SameClass A (fun a a' => R a a' ∨ S a a') k k' :=
  and_or_left.symm

theorem extend_ofIds (R : UInt64 → UInt64 → Prop) (ids ids' : Nat → UInt64) (n n' count : Nat) :
    (ofIds R).extend ids ids' n n' count =
      ofIds fun a a' => R a a' ∨ Drawn ids ids' n n' count a a' := by
  simp only [extend, ofIds, sameClass_or]

theorem extend_zero (L : Links) : L.extend ids ids' n n' 0 = L := by
  simp [extend, SameClass, Drawn]

theorem extend_extend (L : Links) (count count' : Nat) :
    (L.extend ids ids' n n' count).extend ids ids' (n + count) (n' + count) count' =
      L.extend ids ids' n n' (count + count') := by
  have both (a a' : UInt64) : Drawn ids ids' n n' count a a' ∨
      Drawn ids ids' (n + count) (n' + count) count' a a' ↔
        Drawn ids ids' n n' (count + count') a a' := by
    constructor
    · rintro (⟨i, less, id, id'⟩ | ⟨i, less, id, id'⟩)
      · exact ⟨i, by omega, id, id'⟩
      · exact ⟨count + i, by omega, by rw [id, Nat.add_assoc], by rw [id', Nat.add_assoc]⟩
    · rintro ⟨i, less, id, id'⟩
      by_cases early : i < count
      · exact .inl ⟨i, early, id, id'⟩
      · refine .inr ⟨i - count, by omega, ?_, ?_⟩
        · rw [id]
          congr 1
          omega
        · rw [id']
          congr 1
          omega
  simp only [extend, or_assoc, sameClass_or, both]

/-- Ids in an order both sources agree on. -/
theorem Valid.ordered_ofIds {R : UInt64 → UInt64 → Prop} (valid : (ofIds R).Valid ids ids' n n') :
    Ordered R := by
  intro a a' first b b' second
  have keys : SameClass UInt8 R (toLex (0, a)) (toLex (0, a')) := ⟨rfl, first⟩
  have keys' : SameClass UInt8 R (toLex (0, b)) (toLex (0, b')) := ⟨rfl, second⟩
  simpa [Prod.Lex.lt_iff] using valid.ready.ordered keys keys'

end Links

/-- The same step in the life of the same message. -/
inductive Move.Matches (L : Links) : Move → Move → Prop where
  | store (m : Message) (due : Option Int64) : Matches L (.store m due) (.store m due)
  | record (key : Bytes) (time time' : Int64) : Matches L (.record key time) (.record key time')
  | deliver {key key' : ReadyKey} (keys : L.ready key key') (m : Message) :
      Matches L (.deliver key m) (.deliver key' m)
  | settle (tag tag' : UInt64) (m : Message) : Matches L (.settle tag m) (.settle tag' m)
  | retry (tag tag' : UInt64) (m : Message) : Matches L (.retry tag m) (.retry tag' m)
  | promote {key key' : DueKey} (keys : L.scheduled key key') (m : Message) :
      Matches L (.promote key m) (.promote key' m)
  | discard {key key' : ReadyKey} (keys : L.ready key key') (m : Message) :
      Matches L (.discard key m) (.discard key' m)
  | requeue (tag tag' : UInt64) (m : Message) : Matches L (.requeue tag m) (.requeue tag' m)

namespace Move.Matches

variable {L : Links} {mv mv' : Move}

theorem draws (matched : Matches L mv mv') : mv.draws = mv'.draws := by
  cases matched <;> rfl

theorem draws_sum {mvs mvs' : List Move} (matched : List.Forall₂ (Matches L) mvs mvs') :
    (mvs.map Move.draws).sum = (mvs'.map Move.draws).sum := by
  induction matched with
  | nil => rfl
  | cons first _ ih => rw [List.map_cons, List.map_cons, List.sum_cons, List.sum_cons, first.draws, ih]

theorem extend {ids ids' : Nat → UInt64} {n n' : Nat} (matched : Matches L mv mv') (count : Nat) :
    Matches (L.extend ids ids' n n' count) mv mv' := by
  cases matched with
  | store m due => exact .store m due
  | record key time time' => exact .record key time time'
  | deliver keys m => exact .deliver (Or.inl keys) m
  | settle tag tag' m => exact .settle tag tag' m
  | retry tag tag' m => exact .retry tag tag' m
  | promote keys m => exact .promote (Or.inl keys) m
  | discard keys m => exact .discard (Or.inl keys) m
  | requeue tag tag' m => exact .requeue tag tag' m

end Move.Matches

structure Twin (L : Links) (st st' : QueueState) : Prop where
  policy : st.policy = st'.policy
  ready : st.ready.Along L.ready st'.ready
  deadLetter : st.deadLetter.Along L.deadLetter st'.deadLetter
  scheduled : st.scheduled.Along L.scheduled st'.scheduled

namespace Twin

variable {ids ids' : Nat → UInt64} {n n' : Nat} {L : Links} {st st' : QueueState}

theorem fresh (L : Links) (policy : RetentionPolicy) : Twin L (.fresh policy) (.fresh policy) :=
  ⟨rfl, .empty, .empty, .empty⟩

theorem extend (twin : Twin L st st') (count : Nat) :
    Twin (L.extend ids ids' n n' count) st st' where
  policy := twin.policy
  ready := twin.ready.mono fun _ _ => .inl
  deadLetter := twin.deadLetter.mono fun _ _ => .inl
  scheduled := twin.scheduled.mono fun _ _ => .inl

/-- Matching moves keep twins, when the ids they take correspond. -/
theorem move (valid : L.Valid ids ids' n n') (twin : Twin L st st') {mv mv' : Move}
    (matched : mv.Matches L mv') {id id' : UInt64} (joins : mv.draws = 1 → L.Joins id id') :
    Twin L (st.move id mv) (st'.move id' mv') := by
  have ready (one : mv.draws = 1) (m : Message) :
      (st.ready.insert (readyKey m.priority id) m).Along L.ready
        (st'.ready.insert (readyKey m.priority id') m) :=
    twin.ready.insert valid.ready.ordered ((joins one).ready m.priority) m
  cases matched with
  | store m due =>
      cases due with
      | none => exact { twin with ready := ready rfl m }
      | some deliverAt =>
          exact { twin with
            scheduled := twin.scheduled.insert valid.scheduled.ordered
              ((joins rfl).scheduled deliverAt) m }
  | record key time time' => exact { twin with }
  | deliver keys m => exact { twin with ready := twin.ready.erase valid.ready.ordered keys }
  | settle tag tag' m => exact { twin with }
  | retry tag tag' m =>
      simp only [QueueState.move, Move.changes, twin.policy]
      split_ifs
      · exact { twin with
          deadLetter := twin.deadLetter.insert valid.deadLetter.ordered
            ((joins rfl).deadLetter m.priority) m.retried }
      · exact { twin with ready := ready rfl m.retried }
  | promote keys m =>
      exact { twin with
        ready := ready rfl m
        scheduled := twin.scheduled.erase valid.scheduled.ordered keys }
  | discard keys m => exact { twin with ready := twin.ready.erase valid.ready.ordered keys }
  | requeue tag tag' m => exact { twin with ready := ready rfl m }

/-- Matching lists of moves keep twins; the ids they take correspond afterwards. -/
theorem moves (valid : L.Valid ids ids' n n') (twin : Twin L st st') {mvs mvs' : List Move}
    (matched : List.Forall₂ (Move.Matches L) mvs mvs')
    (increasing : StrictMonoOn ids (Set.Iio (n + (mvs.map Move.draws).sum)))
    (increasing' : StrictMonoOn ids' (Set.Iio (n' + (mvs.map Move.draws).sum))) :
    Twin (L.extend ids ids' n n' (mvs.map Move.draws).sum) (st.moves ids n mvs)
      (st'.moves ids' n' mvs') := by
  induction mvs generalizing n n' L st st' mvs' with
  | nil =>
      cases matched
      rw [List.map_nil, List.sum_nil, L.extend_zero]
      exact twin
  | cons mv mvs ih =>
      obtain ⟨mv', mvs', first, rest, rfl⟩ := List.forall₂_cons_left_iff.mp matched
      simp only [List.map_cons, List.sum_cons, ← Nat.add_assoc] at increasing increasing' ⊢
      have valid' := valid.extend (increasing.mono (Set.Iio_subset_Iio (Nat.le_add_right _ _)))
        (increasing'.mono (Set.Iio_subset_Iio (Nat.le_add_right _ _)))
      have moved := (twin.extend mv.draws).move valid' (first.extend mv.draws)
        fun one => one.symm ▸ L.extend_joins
      rw [← L.extend_extend, QueueState.moves, QueueState.moves, ← first.draws]
      exact ih valid' moved (rest.imp fun _ _ matched => matched.extend mv.draws) increasing
        increasing'

end Twin

/-! ## Scripts of twins -/

/-- The tag a consume returned. -/
def Response.tag : Response → Option UInt64
  | .consumed (.ok (some (tag, _))) => some tag
  | _ => none

theorem Operation.missing_tag (op : Operation) {name : String} {response : Response}
    (missing : op.missing = some (name, response)) : response.tag = none := by
  cases op <;> cases missing <;> rfl

/-- Two operations answer the same: equal answers, deliveries of one message under
    corresponding tags, or refusals of the tag each was given. -/
inductive SameAnswer (R : UInt64 → UInt64 → Prop) :
    Operation → Operation → Response → Response → Prop where
  | same (op op' : Operation) {r : Response} (undelivered : r.tag = none) : SameAnswer R op op' r r
  | consumed (queue : String) {tag tag' : UInt64} (tags : R tag tag') (m : Message) :
      SameAnswer R (.consume queue) (.consume queue) (.consumed (.ok (some (tag, m))))
        (.consumed (.ok (some (tag', m))))
  | refusedAck (queue : String) (tag tag' : UInt64) :
      SameAnswer R (.ack queue tag) (.ack queue tag') (.acked (.err (.invalidDeliveryTag tag)))
        (.acked (.err (.invalidDeliveryTag tag')))
  | refusedNack (queue : String) (tag tag' : UInt64) :
      SameAnswer R (.nack queue tag) (.nack queue tag') (.nacked (.err (.invalidDeliveryTag tag)))
        (.nacked (.err (.invalidDeliveryTag tag')))

namespace SameAnswer

variable {R S : UInt64 → UInt64 → Prop} {op op' : Operation} {r r' : Response}

theorem imp (same : SameAnswer R op op' r r')
    (sub : ∀ tag tag', r.tag = some tag → r'.tag = some tag' → R tag tag' → S tag tag') :
    SameAnswer S op op' r r' := by
  cases same with
  | same _ _ undelivered => exact .same _ _ undelivered
  | consumed queue tags m => exact .consumed queue (sub _ _ rfl rfl tags) m
  | refusedAck queue tag tag' => exact .refusedAck queue tag tag'
  | refusedNack queue tag tag' => exact .refusedNack queue tag tag'

/-- Only deliveries can differ when the operations are the same. -/
theorem eq (same : SameAnswer R op op r r') (plain : ∀ queue, op ≠ .consume queue) : r = r' := by
  cases same with
  | same | refusedAck | refusedNack => rfl
  | consumed queue => exact absurd rfl (plain queue)

/-- Both deliver or neither does. -/
theorem tags (same : SameAnswer R op op' r r') : Option.Rel R r.tag r'.tag := by
  cases same with
  | same _ _ undelivered =>
      rw [undelivered]
      exact .none
  | consumed queue tags m => exact .some tags
  | refusedAck | refusedNack => exact .none

end SameAnswer

/-- Ready entries with the same message, under corresponding keys. -/
def SameEntry (L : Links) (e e' : ReadyKey × Message) : Prop := L.ready e.1 e'.1 ∧ e.2 = e'.2

/-- Operations on two queues that find the same wherever they look at the clock, at the
    dedup records or at what is in flight. -/
inductive Finds (L : Links) (clock clock' : Nat → Int64) (st st' : QueueState) :
    Operation → Operation → Prop where
  | declare (name : String) (policy : RetentionPolicy) :
      Finds L clock clock' st st' (.declareQueueWithRetention name policy)
        (.declareQueueWithRetention name policy)
  | publish (queue : String) {m : Message}
      (duplicate : (st.isDuplicate m clock).1 = (st'.isDuplicate m clock').1)
      (due : (notYetDue m (st.isDuplicate m clock).2).1 =
        (notYetDue m (st'.isDuplicate m clock').2).1) :
      Finds L clock clock' st st' (.publish queue m) (.publish queue m)
  | consume (queue : String) : Finds L clock clock' st st' (.consume queue) (.consume queue)
  | ack (queue : String) {tag tag' : UInt64} (found : st.inflight.get tag = st'.inflight.get tag') :
      Finds L clock clock' st st' (.ack queue tag) (.ack queue tag')
  | nack (queue : String) {tag tag' : UInt64}
      (found : st.inflight.get tag = st'.inflight.get tag') :
      Finds L clock clock' st st' (.nack queue tag) (.nack queue tag')
  | promote (queue : String)
      (count : (st.due (clock 0)).length = (st'.due (clock' 0)).length) :
      Finds L clock clock' st st' (.promoteScheduled queue) (.promoteScheduled queue)
  | retain (queue : String)
      (expired : List.Forall₂ (SameEntry L) (st.expired (clock 0)) (st'.expired (clock' 0))) :
      Finds L clock clock' st st' (.applyRetention queue) (.applyRetention queue)
  | reopen (maxBytes : Option UInt64) (messages : st.inflight.values = st'.inflight.values) :
      Finds L clock clock' st st' (.reopen maxBytes) (.reopen maxBytes)

namespace Twin

variable {ids ids' : Nat → UInt64} {n n' : Nat} {L : Links} {st st' : QueueState}
  {clock clock' : Nat → Int64}

theorem due (twin : Twin L st st') {now now' : Int64}
    (count : (st.due now).length = (st'.due now').length) :
    List.Forall₂ (fun e e' => L.scheduled e.1 e'.1 ∧ e.2 = e'.2) (st.due now)
      (st'.due now') := by
  have front (st : QueueState) (now : Int64) :
      st.due now = st.scheduled.entries.take (st.due now).length :=
    List.prefix_iff_eq_take.mp (List.takeWhile_prefix _)
  rw [front st, front st', ← count]
  exact List.forall₂_take _ twin.scheduled

theorem due_count (valid : L.Valid ids ids' n n') (twin : Twin L st st') (now : Int64) :
    (st.due now).length = (st'.due now).length := by
  refine (forall₂_takeWhile ?_ twin.scheduled).length_eq
  intro e e' both
  rw [DueKey.due, DueKey.due, valid.scheduled.sameClass _ _ both.1]

theorem expired (twin : Twin L st st') (now : Int64) :
    List.Forall₂ (SameEntry L) (st.expired now) (st'.expired now) := by
  rw [QueueState.expired, QueueState.expired, twin.policy]
  cases st'.policy.maxAgeSecs with
  | none => exact .nil
  | some maxAgeSecs =>
      refine List.rel_filter ?_ twin.ready
      intro e e' both
      simp only [both.2]

theorem expire (valid : L.Valid ids ids' n n') (twin : Twin L st st') {now now' : Int64}
    (expired : List.Forall₂ (SameEntry L) (st.expired now) (st'.expired now')) :
    Twin L (st.expire now) (st'.expire now') := by
  have keys : List.Forall₂ L.ready ((st.expired now).map Prod.fst)
      ((st'.expired now').map Prod.fst) :=
    List.rel_map (fun _ _ both => both.1) expired
  exact { twin with ready := twin.ready.foldl_erase valid.ready.ordered keys }

theorem excess (twin : Twin L st st') : List.Forall₂ (SameEntry L) st.excess st'.excess := by
  rw [QueueState.excess, QueueState.excess, twin.policy]
  cases st'.policy.maxMessages with
  | none => exact .nil
  | some maxMessages =>
      rw [twin.ready.length_eq]
      exact List.forall₂_take _ twin.ready

/-- Twins that find the same answer alike and make matching moves. -/
theorem script (valid : L.Valid ids ids' n n') (twin : Twin L st st') {op op' : Operation}
    (finds : Finds L clock clock' st st' op op') :
    SameAnswer L.tags op op' (st.script clock op).1 (st'.script clock' op').1 ∧
      List.Forall₂ (Move.Matches L) (st.script clock op).2 (st'.script clock' op').2 := by
  cases finds with
  | declare name policy => exact ⟨.same _ _ rfl, .nil⟩
  | @publish queue m duplicate due =>
      simp only [QueueState.script, ← duplicate, ← due]
      split_ifs
      · exact ⟨.same _ _ rfl, .nil⟩
      · refine ⟨.same _ _ rfl, .cons (.store m _) ?_⟩
        rw [QueueState.recordDedup, QueueState.recordDedup, twin.policy]
        cases st'.policy.dedupWindowSecs with
        | none => exact .nil
        | some windowSecs =>
            cases m.dedupKey with
            | none => exact .nil
            | some key => exact .cons (.record ..) .nil
  | consume queue =>
      simp only [QueueState.script]
      cases entries : st.ready.entries with
      | nil =>
          rw [twin.ready.nil_iff.mp entries]
          exact ⟨.same _ _ rfl, .nil⟩
      | cons e rest =>
          obtain ⟨key', rest', entries', keys⟩ := twin.ready.front entries
          rw [entries']
          exact ⟨.consumed queue ⟨e.1, key', keys, rfl, rfl⟩ e.2, .cons (.deliver keys e.2) .nil⟩
  | @ack queue tag tag' found =>
      simp only [QueueState.script, ← found]
      cases st.inflight.get tag with
      | none => exact ⟨.refusedAck queue tag tag', .nil⟩
      | some m => exact ⟨.same _ _ rfl, .cons (.settle tag tag' m) .nil⟩
  | @nack queue tag tag' found =>
      simp only [QueueState.script, ← found]
      cases st.inflight.get tag with
      | none => exact ⟨.refusedNack queue tag tag', .nil⟩
      | some m => exact ⟨.same _ _ rfl, .cons (.retry tag tag' m) .nil⟩
  | promote queue count =>
      simp only [QueueState.script, count]
      refine ⟨.same _ _ rfl, List.rel_map ?_ (twin.due count)⟩
      rintro ⟨key, m⟩ ⟨key', _⟩ ⟨keys, rfl⟩
      exact .promote keys m
  | retain queue expired =>
      have excess := (twin.expire valid expired).excess
      simp only [QueueState.script, expired.length_eq, excess.length_eq]
      refine ⟨.same _ _ rfl, List.rel_map ?_ (List.rel_append expired excess)⟩
      rintro ⟨key, m⟩ ⟨key', _⟩ ⟨keys, rfl⟩
      exact .discard keys m
  | reopen maxBytes messages =>
      refine ⟨.same _ _ rfl, ?_⟩
      have alike : List.Forall₂ (fun e e' => e.2 = e'.2) st.inflight.entries st'.inflight.entries := by
        have values : List.Forall₂ Eq st.inflight.values st'.inflight.values :=
          List.forall₂_eq_eq_eq ▸ messages
        rw [OrdMap.values, OrdMap.values, List.forall₂_map_left_iff, List.forall₂_map_right_iff]
          at values
        exact values
      refine List.rel_map ?_ alike
      rintro ⟨tag, m⟩ ⟨tag', _⟩ rfl
      exact .requeue tag tag' m

end Twin

/-! ## What scripts do to the rest -/

namespace QueueState

variable {ids : Nat → UInt64}

/-- What an operation leaves in flight. -/
def flight (st : QueueState) : Operation → OrdMap UInt64 Message
  | .consume _ =>
      match st.ready.entries.head? with
      | none => st.inflight
      | some (key, m) => st.inflight.insert (ReadyKey.id key) m
  | .ack _ tag | .nack _ tag => st.inflight.erase tag
  | .reopen _ => .empty
  | .declareQueueWithRetention .. | .publish .. | .promoteScheduled _ | .applyRetention _ =>
      st.inflight

theorem inflight_script (n : Nat) (clock : Nat → Int64) (st : QueueState) (op : Operation) :
    (st.moves ids n (st.script clock op).2).inflight = st.flight op := by
  cases op with
  | declareQueueWithRetention name policy => rfl
  | publish queue m =>
      simp only [script]
      split_ifs
      · rfl
      · rw [recordDedup]
        cases st.policy.dedupWindowSecs <;> cases m.dedupKey <;>
          cases (notYetDue m (st.isDuplicate m clock).2).1 <;> rfl
  | consume queue =>
      simp only [script, flight]
      cases st.ready.entries.head? <;> rfl
  | ack queue tag =>
      simp only [script, flight]
      cases found : st.inflight.get tag with
      | none => exact (OrdMap.erase_absent found).symm
      | some m => rfl
  | nack queue tag =>
      simp only [script, flight]
      cases found : st.inflight.get tag with
      | none => exact (OrdMap.erase_absent found).symm
      | some m =>
          simp only [moves, QueueState.move, Move.changes]
          split_ifs <;> rfl
  | promoteScheduled queue =>
      have promoted (entries : List (DueKey × Message)) (n : Nat) (st : QueueState) :
          (moves ids n st (entries.map fun e => .promote e.1 e.2)).inflight = st.inflight := by
        induction entries generalizing n st with
        | nil => rfl
        | cons e entries ih => exact ih _ _
      exact promoted _ n st
  | applyRetention queue =>
      simp only [script, moves_discard]
      rfl
  | reopen maxBytes =>
      have requeued (entries : List (UInt64 × Message)) (n : Nat) (st : QueueState) :
          (moves ids n st (entries.map fun e => .requeue e.1 e.2)).inflight =
            (entries.map Prod.fst).foldl OrdMap.erase st.inflight := by
        induction entries generalizing n st with
        | nil => rfl
        | cons e entries ih => exact ih _ _
      apply OrdMap.ext_entries
      simp only [script, requeued, OrdMap.foldl_erase_entries, flight, OrdMap.entries_empty]
      rw [List.filter_eq_nil_iff]
      intro e member
      have listed : e.1 ∈ st.inflight.entries.map Prod.fst := List.mem_map_of_mem member
      simpa only [decide_eq_true_eq, not_not] using listed

/-- What is in flight after an operation was before, or is what the operation returned. -/
theorem mem_flight (clock : Nat → Int64) {st : QueueState} {op : Operation} {tag : UInt64}
    (member : tag ∈ (st.flight op).keys) :
    tag ∈ st.inflight.keys ∨ (st.script clock op).1.tag = some tag := by
  cases op with
  | consume queue =>
      simp only [flight, script] at member ⊢
      cases front : st.ready.entries.head? with
      | none =>
          rw [front] at member
          exact .inl member
      | some e =>
          rw [front] at member
          rcases OrdMap.mem_keys_insert.mp member with rfl | old
          · exact .inr rfl
          · exact .inl old
  | ack queue tag | nack queue tag => exact .inl (OrdMap.mem_keys_erase.mp member).2
  | reopen maxBytes => cases member
  | declareQueueWithRetention | publish | promoteScheduled | applyRetention => exact .inl member

/-- What an operation leaves on record for deduplication. -/
def records (clock : Nat → Int64) (st : QueueState) : Operation → OrdMap Bytes Int64
  | .publish _ m =>
      if (st.isDuplicate m clock).1 then st.dedup else
        match st.policy.dedupWindowSecs, m.dedupKey with
        | some _, some key =>
            st.dedup.insert key.utf8 ((notYetDue m (st.isDuplicate m clock).2).2 0)
        | _, _ => st.dedup
  | _ => st.dedup

theorem dedup_script (n : Nat) (clock : Nat → Int64) (st : QueueState) (op : Operation) :
    (st.moves ids n (st.script clock op).2).dedup = st.records clock op := by
  cases op with
  | declareQueueWithRetention name policy => rfl
  | publish queue m =>
      simp only [script, records]
      split_ifs
      · rfl
      · rw [recordDedup]
        cases st.policy.dedupWindowSecs <;> cases m.dedupKey <;>
          cases (notYetDue m (st.isDuplicate m clock).2).1 <;> rfl
  | consume queue =>
      simp only [script, records]
      cases st.ready.entries.head? <;> rfl
  | ack queue tag =>
      simp only [script, records]
      cases st.inflight.get tag <;> rfl
  | nack queue tag =>
      simp only [script, records]
      cases st.inflight.get tag with
      | none => rfl
      | some m =>
          simp only [moves, QueueState.move, Move.changes]
          split_ifs <;> rfl
  | promoteScheduled queue =>
      have promoted (entries : List (DueKey × Message)) (n : Nat) (st : QueueState) :
          (moves ids n st (entries.map fun e => .promote e.1 e.2)).dedup = st.dedup := by
        induction entries generalizing n st with
        | nil => rfl
        | cons e entries ih => exact ih _ _
      exact promoted _ n st
  | applyRetention queue =>
      simp only [script, moves_discard]
      rfl
  | reopen maxBytes =>
      have requeued (entries : List (UInt64 × Message)) (n : Nat) (st : QueueState) :
          (moves ids n st (entries.map fun e => .requeue e.1 e.2)).dedup = st.dedup := by
        induction entries generalizing n st with
        | nil => rfl
        | cons e entries ih => exact ih _ _
      exact requeued _ n st

end QueueState

/-! ## Kin: twins with the same records and flights -/

/-- The same operation, up to the tag it names. -/
inductive Operation.Renamed (T : UInt64 → UInt64 → Prop) : Operation → Operation → Prop where
  | declare (name : String) (policy : RetentionPolicy) :
      Renamed T (.declareQueueWithRetention name policy) (.declareQueueWithRetention name policy)
  | publish (queue : String) (m : Message) : Renamed T (.publish queue m) (.publish queue m)
  | consume (queue : String) : Renamed T (.consume queue) (.consume queue)
  | ack (queue : String) {tag tag' : UInt64} (tags : T tag tag') :
      Renamed T (.ack queue tag) (.ack queue tag')
  | nack (queue : String) {tag tag' : UInt64} (tags : T tag tag') :
      Renamed T (.nack queue tag) (.nack queue tag')
  | promote (queue : String) : Renamed T (.promoteScheduled queue) (.promoteScheduled queue)
  | retain (queue : String) : Renamed T (.applyRetention queue) (.applyRetention queue)
  | reopen (maxBytes : Option UInt64) : Renamed T (.reopen maxBytes) (.reopen maxBytes)

/-- Twins with the same messages in flight, under tags related by `F`, and the same dedup
    records. -/
structure Kin (R F : UInt64 → UInt64 → Prop) (st st' : QueueState) : Prop extends
    Twin (.ofIds R) st st' where
  inflight : st.inflight.Along F st'.inflight
  dedup : st.dedup = st'.dedup

namespace Kin

variable {ids ids' : Nat → UInt64} {n n' : Nat} {R F : UInt64 → UInt64 → Prop}
  {st st' : QueueState} {clock : Nat → Int64}

theorem fresh (R F : UInt64 → UInt64 → Prop) (policy : RetentionPolicy) :
    Kin R F (.fresh policy) (.fresh policy) :=
  ⟨.fresh (.ofIds R) policy, .empty, rfl⟩

/-- A tag is renamed to its counterpart, or one that is not in flight to another. -/
def Names (F : UInt64 → UInt64 → Prop) (st st' : QueueState) (tag tag' : UInt64) : Prop :=
  F tag tag' ∨ (tag ∉ st.inflight.keys ∧ tag' ∉ st'.inflight.keys)

theorem found (ordered : Ordered F) (kin : Kin R F st st') {tag tag' : UInt64}
    (names : Names F st st' tag tag') : st.inflight.get tag = st'.inflight.get tag' := by
  rcases names with tags | ⟨absent, absent'⟩
  · exact kin.inflight.get_eq ordered tags
  · rw [OrdMap.get_eq_none.mpr absent, OrdMap.get_eq_none.mpr absent']

theorem isDuplicate (kin : Kin R F st st') (m : Message) (clock : Nat → Int64) :
    st.isDuplicate m clock = st'.isDuplicate m clock := by
  rw [QueueState.isDuplicate, QueueState.isDuplicate, kin.policy, kin.dedup]

/-- Kin find the same at the same time. -/
theorem finds (valid : (Links.ofIds R).Valid ids ids' n n') (ordered : Ordered F)
    (kin : Kin R F st st') {op op' : Operation} (renamed : op.Renamed (Names F st st') op')
    (clock : Nat → Int64) : Finds (.ofIds R) clock clock st st' op op' := by
  cases renamed with
  | declare name policy => exact .declare name policy
  | publish queue m =>
      refine .publish queue ?_ ?_
      · rw [kin.isDuplicate]
      · rw [kin.isDuplicate]
  | consume queue => exact .consume queue
  | ack queue tags => exact .ack queue (kin.found ordered tags)
  | nack queue tags => exact .nack queue (kin.found ordered tags)
  | promote queue => exact .promote queue (kin.due_count valid _)
  | retain queue => exact .retain queue (kin.expired _)
  | reopen maxBytes => exact .reopen maxBytes kin.inflight.values_eq

/-- What is in flight stays alongside, when corresponding tags are delivered. -/
theorem flight (ordered : Ordered F) (kin : Kin R F st st') {op op' : Operation}
    (renamed : op.Renamed (Names F st st') op')
    (delivered : ∀ e rest e' rest', st.ready.entries = e :: rest → st'.ready.entries = e' :: rest' →
      (∃ queue, op = .consume queue) → F (ReadyKey.id e.1) (ReadyKey.id e'.1)) :
    (st.flight op).Along F (st'.flight op') := by
  have erased {tag tag' : UInt64} (names : Names F st st' tag tag') :
      (st.inflight.erase tag).Along F (st'.inflight.erase tag') := by
    rcases names with tags | ⟨absent, absent'⟩
    · exact kin.inflight.erase ordered tags
    · rw [OrdMap.erase_absent (OrdMap.get_eq_none.mpr absent),
        OrdMap.erase_absent (OrdMap.get_eq_none.mpr absent')]
      exact kin.inflight
  cases renamed with
  | declare | publish | promote | retain => exact kin.inflight
  | consume queue =>
      simp only [QueueState.flight]
      cases entries : st.ready.entries with
      | nil =>
          rw [kin.ready.nil_iff.mp entries]
          exact kin.inflight
      | cons e rest =>
          obtain ⟨key', rest', entries', -⟩ := kin.ready.front entries
          rw [entries']
          exact kin.inflight.insert ordered
            (delivered e rest _ rest' entries entries' ⟨queue, rfl⟩) e.2
  | ack queue tags => exact erased tags
  | nack queue tags => exact erased tags
  | reopen => exact .empty

theorem records (kin : Kin R F st st') {op op' : Operation} {T : UInt64 → UInt64 → Prop}
    (renamed : op.Renamed T op') : st.records clock op = st'.records clock op' := by
  cases renamed with
  | publish queue m =>
      simp only [QueueState.records, kin.isDuplicate, kin.policy, kin.dedup]
  | declare | consume | ack | nack | promote | retain | reopen => exact kin.dedup

end Kin

end PelicanQ
