import PelicanQ.Broker.Twins

/-! # Noninterference

All queues of a manager share one source of ids and one counter.  Still, without
a storage limit, a queue answers as if it were alone: take the operations on
other queues out of a run, and use another source of ids, and the operations on
this queue answer the same, up to a renaming of the delivery tags.

The renaming is built as the two runs go: a tag is renamed to what the
corresponding consume returned.  A tag that no consume returned may be renamed
to any other that no consume returned.
-/

namespace PelicanQ

/-- The pair of tags that two corresponding consumes returned. -/
def returnedTags : Event × Event → List (UInt64 × UInt64)
  | (e, e') =>
      match e.response.tag, e'.response.tag with
      | some tag, some tag' => [(tag, tag')]
      | _, _ => []

/-- The renaming after the listed pairs of events. -/
def tagPairs (kept : List (Event × Event)) : List (UInt64 × UInt64) := kept.flatMap returnedTags

/-- A returned tag stands for the tag returned in its place, any other tag for any other. -/
def Renames (pairs : List (UInt64 × UInt64)) (tag tag' : UInt64) : Prop :=
  (tag, tag') ∈ pairs ∨ (tag ∉ pairs.map Prod.fst ∧ tag' ∉ pairs.map Prod.snd)

/-- Events of two runs, the second without the operations on queues other than `q`, and the
    pairs of events that correspond. -/
inductive Erased (q : String) : List Event → List Event → List (Event × Event) → Prop where
  | start : Erased q [] [] []
  | other {past past' : List Event} {kept : List (Event × Event)} {e : Event} {name : String}
      (before : Erased q past past' kept) (on : e.step.op.on = some name) (different : name ≠ q) :
      Erased q (past ++ [e]) past' kept
  | kept {past past' : List Event} {kept : List (Event × Event)} {e e' : Event}
      (before : Erased q past past' kept) (here : e.step.op.on = some q ∨ e.step.op.on = none)
      (renamed : e.step.op.Renamed (Renames (tagPairs kept)) e'.step.op)
      (clock : e.step.clock = e'.step.clock) :
      Erased q (past ++ [e]) (past' ++ [e']) (kept ++ [(e, e')])

/-- Corresponding events answer the same, up to the renaming. -/
def SameAnswers (kept : List (Event × Event)) : Prop :=
  ∀ p ∈ kept, SameAnswer (fun tag tag' => (tag, tag') ∈ tagPairs kept) p.1.step.op p.2.step.op
    p.1.response p.2.response

/-! ## One step of both runs -/

/-- Two brokers that hold a queue as kin, or not at all. -/
def Shared (R : UInt64 → UInt64 → Prop) (b b' : Broker) (q : String) : Prop :=
  Option.Rel (Kin R R) (b.queue q) (b'.queue q)

section Step

variable {bc : Bincode} {ids ids' : Nat → UInt64} {clock : Nat → Int64} {b b' : Broker}
  {q : String} {R : UInt64 → UInt64 → Prop}

theorem Operation.Renamed.on {T : UInt64 → UInt64 → Prop} {op op' : Operation}
    (renamed : op.Renamed T op') : op.on = op'.on := by
  cases renamed <;> rfl

theorem Operation.Renamed.missing {T : UInt64 → UInt64 → Prop} {op op' : Operation}
    (renamed : op.Renamed T op') : op.missing = op'.missing := by
  cases renamed <;> rfl

theorem Operation.Renamed.imp {T T' : UInt64 → UInt64 → Prop} {op op' : Operation}
    (renamed : op.Renamed T op') (sub : ∀ t t', T t t' → T' t t') : op.Renamed T' op' := by
  cases renamed with
  | declare name policy => exact .declare name policy
  | publish queue m => exact .publish queue m
  | consume queue => exact .consume queue
  | ack queue tags => exact .ack queue (sub _ _ tags)
  | nack queue tags => exact .nack queue (sub _ _ tags)
  | promote queue => exact .promote queue
  | retain queue => exact .retain queue
  | reopen maxBytes => exact .reopen maxBytes

/-- Kin that follow their scripts stay kin. -/
theorem Kin.moves {st st' : QueueState} {n n' : Nat} (valid : (Links.ofIds R).Valid ids ids' n n')
    (kin : Kin R R st st') {op op' : Operation} (renamed : op.Renamed (Kin.Names R st st') op')
    (increasing : StrictMonoOn ids (Set.Iio (n + ((st.script clock op).2.map Move.draws).sum)))
    (increasing' :
      StrictMonoOn ids' (Set.Iio (n' + ((st'.script clock op').2.map Move.draws).sum))) :
    SameAnswer R op op' (st.script clock op).1 (st'.script clock op').1 ∧
      ∃ S, (∀ a a', R a a' → S a a') ∧
        (Links.ofIds S).Valid ids ids' (n + ((st.script clock op).2.map Move.draws).sum)
          (n' + ((st'.script clock op').2.map Move.draws).sum) ∧
        Kin S S (st.moves ids n (st.script clock op).2)
          (st'.moves ids' n' (st'.script clock op').2) := by
  obtain ⟨same, matched⟩ := kin.script valid (kin.finds valid valid.ordered_ofIds renamed clock)
  rw [← Move.Matches.draws_sum matched] at increasing' ⊢
  have valid' := valid.extend increasing increasing'
  have twin := kin.toTwin.moves valid matched increasing increasing'
  rw [Links.extend_ofIds] at valid' twin
  refine ⟨same.imp ?_, _, fun _ _ => .inl, valid', ⟨twin, ?_, ?_⟩⟩
  · rintro tag tag' - - ⟨k, k', keys, rfl, rfl⟩
    exact keys.2
  · rw [QueueState.inflight_script, QueueState.inflight_script]
    refine (kin.flight valid.ordered_ofIds renamed ?_).mono fun _ _ => .inl
    intro e rest e' rest' entries entries' _
    obtain ⟨key', _, front, keys⟩ := kin.ready.front entries
    rw [entries', List.cons.injEq] at front
    rw [front.1]
    exact keys.2
  · rw [QueueState.dedup_script, QueueState.dedup_script]
    exact kin.records renamed

/-- An operation on the queue, in both runs. -/
theorem shared_perform (valid : (Links.ofIds R).Valid ids ids' b.drawn b'.drawn) (shared : Shared R b b' q)
    (unlimited : b.maxBytes = none) (unlimited' : b'.maxBytes = none)
    {op op' : Operation} (on : op.on = some q)
    (renamed : op.Renamed (fun t t' => ∀ st st', b.queue q = some st → b'.queue q = some st' →
      Kin.Names R st st' t t') op')
    (increasing : StrictMonoOn ids (Set.Iio (b.perform bc ids clock op).2.drawn))
    (increasing' : StrictMonoOn ids' (Set.Iio (b'.perform bc ids' clock op').2.drawn)) :
    SameAnswer R op op' (b.perform bc ids clock op).1 (b'.perform bc ids' clock op').1 ∧
      ∃ S, (∀ a a', R a a' → S a a') ∧
        (Links.ofIds S).Valid ids ids' (b.perform bc ids clock op).2.drawn
          (b'.perform bc ids' clock op').2.drawn ∧
        Shared S (b.perform bc ids clock op).2 (b'.perform bc ids' clock op').2 q := by
  have on' : op'.on = some q := renamed.on ▸ on
  unfold Shared at shared ⊢
  cases declared : b.queue q with
  | none =>
      rw [declared] at shared
      cases undeclared' : b'.queue q with
      | some st' => rw [undeclared'] at shared; cases shared
      | none =>
          rcases Broker.perform_undeclared bc ids clock on declared with
            ⟨policy, rfl, response, queue, drawn⟩ | ⟨response, missing, answer, after⟩
          · cases renamed
            rcases Broker.perform_undeclared bc ids' clock on' undeclared' with
              ⟨_, same, response', queue', drawn'⟩ | ⟨_, missing', -⟩
            · cases same
              rw [response, response', queue, queue', drawn, drawn']
              exact ⟨.same _ _ rfl, R, fun _ _ both => both, valid, .some (.fresh R R policy)⟩
            · cases missing'
          · rcases Broker.perform_undeclared bc ids' clock on' undeclared' with
              ⟨policy, rfl, -⟩ | ⟨response', missing', answer', after'⟩
            · cases renamed
              cases missing
            · have same : response = response' := by
                have one := renamed.missing
                rw [missing, missing'] at one
                cases one
                rfl
              rw [answer, answer', after, after', same, declared, undeclared']
              exact ⟨.same _ _ (op'.missing_tag missing'), R, fun _ _ both => both, valid, .none⟩
  | some st =>
      rw [declared] at shared
      cases declared' : b'.queue q with
      | none => rw [declared'] at shared; cases shared
      | some st' =>
          rw [declared'] at shared
          cases shared with
          | some kin =>
              obtain ⟨answer, after⟩ := Broker.perform_script bc ids clock declared on
                (Broker.admits_unlimited unlimited op)
              obtain ⟨answer', after'⟩ := Broker.perform_script bc ids' clock declared' on'
                (Broker.admits_unlimited unlimited' op')
              have renamed' : op.Renamed (Kin.Names R st st') op' :=
                renamed.imp fun t t' names => names st st' declared declared'
              obtain ⟨same, S, wider, valid', kin'⟩ := kin.moves valid renamed'
                (increasing.mono (Set.Iio_subset_Iio after.fits))
                (increasing'.mono (Set.Iio_subset_Iio after'.fits))
              rw [answer, answer', after.queue, after'.queue]
              exact ⟨same, S, wider, valid'.later after.fits after'.fits, .some kin'⟩

/-- A restart, in both runs. -/
theorem shared_reopen (valid : (Links.ofIds R).Valid ids ids' b.drawn b'.drawn) (shared : Shared R b b' q)
    (utf8 : ∀ key ∈ b.queues.keys, ∃ name : String, key = name.utf8)
    (utf8' : ∀ key ∈ b'.queues.keys, ∃ name : String, key = name.utf8) (maxBytes : Option UInt64)
    (increasing : StrictMonoOn ids (Set.Iio (b.reopen bc ids maxBytes).drawn))
    (increasing' : StrictMonoOn ids' (Set.Iio (b'.reopen bc ids' maxBytes).drawn)) :
    ∃ S, (∀ a a', R a a' → S a a') ∧
      (Links.ofIds S).Valid ids ids' (b.reopen bc ids maxBytes).drawn
        (b'.reopen bc ids' maxBytes).drawn ∧
        Shared S (b.reopen bc ids maxBytes) (b'.reopen bc ids' maxBytes) q := by
  unfold Shared at shared ⊢
  cases declared : b.queue q with
  | none =>
      rw [declared] at shared
      cases undeclared' : b'.queue q with
      | some st' => rw [undeclared'] at shared; cases shared
      | none =>
          rw [Broker.reopen_undeclared bc ids declared, Broker.reopen_undeclared bc ids' undeclared']
          exact ⟨R, fun _ _ both => both, valid.later (Broker.reopen_drawn bc ids b maxBytes)
            (Broker.reopen_drawn bc ids' b' maxBytes), .none⟩
  | some st =>
      rw [declared] at shared
      cases declared' : b'.queue q with
      | none => rw [declared'] at shared; cases shared
      | some st' =>
          rw [declared'] at shared
          cases shared with
          | some kin =>
              obtain ⟨n, le, queue, drawn⟩ :=
                Broker.reopen_script bc ids (fun _ => 0) utf8 declared maxBytes
              obtain ⟨n', le', queue', drawn'⟩ :=
                Broker.reopen_script bc ids' (fun _ => 0) utf8' declared' maxBytes
              obtain ⟨-, S, wider, valid', kin'⟩ := kin.moves (valid.later le le')
                (.reopen maxBytes) (increasing.mono (Set.Iio_subset_Iio drawn))
                (increasing'.mono (Set.Iio_subset_Iio drawn'))
              rw [queue, queue']
              exact ⟨S, wider, valid'.later drawn drawn', .some kin'⟩

end Step

/-! ## Both runs -/

/-- One side of the comparison: a run of a manager without a limit, as a broker. -/
structure Side (bc : Bincode) (ids : Nat → UInt64) (steps : List Step) (b : Broker) : Prop where
  refines : Refines bc (final bc ids (started bc ids none) steps) b
  names : ∀ a ∈ b.names, a ∈ declaredNames steps
  unlimited : b.maxBytes = none

/-- No restart sets a limit. -/
def Unlimited (steps : List Step) : Prop :=
  ∀ step ∈ steps, ∀ maxBytes, step.op = .reopen maxBytes → maxBytes = none

section Sides

variable {bc : Bincode} {ids : Nat → UInt64} {steps : List Step} {b : Broker}

theorem Side.step (side : Side bc ids steps b) {step : Step}
    (apart : NonColliding (declaredNames (steps ++ [step])))
    (unlimited : Unlimited (steps ++ [step])) :
    Side bc ids (steps ++ [step]) (b.perform bc ids step.clock step.op).2 ∧
      (performed bc ids (final bc ids (started bc ids none) steps) step).response =
        (b.perform bc ids step.clock step.op).1 := by
  have known : ∀ a ∈ step.op.declares ++ b.names, a ∈ declaredNames (steps ++ [step]) := by
    intro a member
    rw [declaredNames_append]
    rcases List.mem_append.mp member with new | old
    · exact List.mem_append_right _ new
    · exact List.mem_append_left _ (side.names a old)
  obtain ⟨response, refines⟩ := perform_refines ids step.clock side.refines step.op
    (apart.subset known)
  refine ⟨⟨?_, ?_, ?_⟩, response⟩
  · rw [final_append]
    exact refines
  · intro a member
    exact known a (perform_names bc ids step.clock b step.op a member)
  · cases on : step.op.on with
    | some name => exact (Broker.perform_maxBytes bc ids step.clock on).trans side.unlimited
    | none =>
        obtain ⟨maxBytes, reopen⟩ := step.op.on_none on
        have never := unlimited step (List.mem_append_right _ List.mem_cons_self) maxBytes reopen
        rw [reopen, never]
        exact Broker.reopen_maxBytes none

end Sides

/-- What is in flight in a queue was returned by one of the consumes. -/
def FlightsReturned (b : Broker) (q : String) (tags : List UInt64) : Prop :=
  ∀ st, b.queue q = some st → ∀ tag ∈ st.inflight.keys, tag ∈ tags

section Both

variable {bc : Bincode} {ids ids' : Nat → UInt64} {q : String}

theorem Side.start : Side bc ids [] ⟨.empty, 0, 0, none⟩ where
  refines := started_refines bc ids none
  names _ member := (List.not_mem_nil member).elim
  unlimited := rfl

/-- The two runs side by side. -/
structure Abreast (bc : Bincode) (ids ids' : Nat → UInt64) (q : String) (steps steps' : List Step)
    (kept : List (Event × Event)) (b b' : Broker) (R : UInt64 → UInt64 → Prop) : Prop where
  side : Side bc ids steps b
  side' : Side bc ids' steps' b'
  valid : (Links.ofIds R).Valid ids ids' b.drawn b'.drawn
  shared : Shared R b b' q
  returned : ∀ p ∈ tagPairs kept, R p.1 p.2
  flights : FlightsReturned b q ((tagPairs kept).map Prod.fst)
  flights' : FlightsReturned b' q ((tagPairs kept).map Prod.snd)
  answers : SameAnswers kept

theorem Abreast.start : Abreast bc ids ids' q [] [] [] ⟨.empty, 0, 0, none⟩ ⟨.empty, 0, 0, none⟩
    fun _ _ => False where
  side := .start
  side' := .start
  valid := .none ids ids' 0 0
  shared := .none
  returned _ member := (List.not_mem_nil member).elim
  flights _ undeclared := absurd undeclared nofun
  flights' _ undeclared := absurd undeclared nofun
  answers _ member := (List.not_mem_nil member).elim

theorem tagPairs_append (kept : List (Event × Event)) (p : Event × Event) :
    tagPairs (kept ++ [p]) = tagPairs kept ++ returnedTags p := by
  simp only [tagPairs, List.flatMap_append, List.flatMap_singleton]

/-- An operation on another queue leaves this one alone. -/
theorem Abreast.other {steps steps' : List Step} {kept : List (Event × Event)} {b b' : Broker}
    {R : UInt64 → UInt64 → Prop} (abreast : Abreast bc ids ids' q steps steps' kept b b' R)
    {step : Step} {name : String} (on : step.op.on = some name) (different : name ≠ q)
    (side : Side bc ids (steps ++ [step]) (b.perform bc ids step.clock step.op).2) :
    Abreast bc ids ids' q (steps ++ [step]) steps' kept (b.perform bc ids step.clock step.op).2 b'
      R := by
  have queue : (b.perform bc ids step.clock step.op).2.queue q = b.queue q :=
    Broker.perform_queue_other bc ids step.clock on different.symm
  have drawn : b.drawn ≤ (b.perform bc ids step.clock step.op).2.drawn := by
    obtain ⟨_, transition⟩ := perform_transition ids bc step.clock b abreast.side.refines.held.utf8
      step.op
    exact transition.path.drawn_le
  have flights := abreast.flights
  have shared := abreast.shared
  unfold FlightsReturned at flights
  unfold Shared at shared
  rw [← queue] at flights shared
  exact { abreast with
    side := side
    valid := abreast.valid.later drawn (Nat.le_refl _)
    shared := shared
    flights := flights }

/-- What is in flight after an operation was before, or is what the operation returned. -/
theorem flights_perform (bc : Bincode) (ids : Nat → UInt64) (clock : Nat → Int64) {b : Broker}
    (unlimited : b.maxBytes = none)
    (utf8 : ∀ key ∈ b.queues.keys, ∃ name : String, key = name.utf8) {op : Operation}
    (here : op.on = some q ∨ op.on = none) {tags : List UInt64} (flights : FlightsReturned b q tags) :
    FlightsReturned (b.perform bc ids clock op).2 q
      (tags ++ (b.perform bc ids clock op).1.tag.toList) := by
  intro after declared tag member
  rcases here with on | none
  · cases held : b.queue q with
    | none =>
        rcases Broker.perform_undeclared bc ids clock on held with
          ⟨policy, -, -, queue, -⟩ | ⟨_, -, -, same⟩
        · rw [queue, Option.some.injEq] at declared
          rw [← declared] at member
          cases member
        · rw [same, held] at declared
          cases declared
    | some st =>
        obtain ⟨answer, scripted⟩ := Broker.perform_script bc ids clock held on
          (Broker.admits_unlimited unlimited op)
        rw [scripted.queue, Option.some.injEq] at declared
        rw [← declared, QueueState.inflight_script] at member
        rw [answer]
        rcases QueueState.mem_flight clock member with old | new
        · exact List.mem_append_left _ (flights st held tag old)
        · rw [new]
          exact List.mem_append_right _ List.mem_cons_self
  · obtain ⟨maxBytes, rfl⟩ := op.on_none none
    cases held : b.queue q with
    | none =>
        have kept := Broker.reopen_undeclared bc ids held maxBytes
        exact absurd (kept.symm.trans declared) nofun
    | some st =>
        obtain ⟨n, -, queue, -⟩ := Broker.reopen_script bc ids clock utf8 held maxBytes
        have same := Option.some.inj (queue.symm.trans declared)
        rw [← same, QueueState.inflight_script] at member
        cases member

theorem returnedTags_of_rel {R : UInt64 → UInt64 → Prop} {e e' : Event}
    (tags : Option.Rel R e.response.tag e'.response.tag) :
    (returnedTags (e, e')).map Prod.fst = e.response.tag.toList ∧
      (returnedTags (e, e')).map Prod.snd = e'.response.tag.toList ∧
        ∀ p ∈ returnedTags (e, e'), R p.1 p.2 := by
  rw [returnedTags]
  cases tag : e.response.tag with
  | none =>
      rw [tag] at tags
      cases tag' : e'.response.tag with
      | none => exact ⟨rfl, rfl, nofun⟩
      | some _ => rw [tag'] at tags; cases tags
  | some _ =>
      rw [tag] at tags
      cases tag' : e'.response.tag with
      | none => rw [tag'] at tags; cases tags
      | some _ =>
          rw [tag'] at tags
          cases tags with
          | some related =>
              refine ⟨rfl, rfl, ?_⟩
              intro p member
              rw [List.mem_singleton.mp member]
              exact related

/-- A further pair of corresponding events. -/
theorem SameAnswers.append {R : UInt64 → UInt64 → Prop} {kept : List (Event × Event)} {e e' : Event}
    (answers : SameAnswers kept)
    (same : SameAnswer R e.step.op e'.step.op e.response e'.response) :
    SameAnswers (kept ++ [(e, e')]) := by
  intro p member
  rw [tagPairs_append]
  rcases List.mem_append.mp member with old | new
  · exact (answers p old).imp fun _ _ _ _ => List.mem_append_left _
  · rw [List.mem_singleton.mp new]
    refine same.imp fun tag tag' delivered delivered' _ => List.mem_append_right _ ?_
    rw [returnedTags, delivered, delivered']
    exact List.mem_cons_self

/-- Corresponding steps. -/
theorem Abreast.kept {steps steps' : List Step} {kept : List (Event × Event)} {b b' : Broker}
    {R : UInt64 → UInt64 → Prop} (abreast : Abreast bc ids ids' q steps steps' kept b b' R)
    {step step' : Step} (here : step.op.on = some q ∨ step.op.on = none)
    (renamed : step.op.Renamed (Renames (tagPairs kept)) step'.op) (clock : step.clock = step'.clock)
    (side : Side bc ids (steps ++ [step]) (b.perform bc ids step.clock step.op).2)
    (side' : Side bc ids' (steps' ++ [step']) (b'.perform bc ids' step'.clock step'.op).2)
    (increasing : StrictMonoOn ids (Set.Iio (b.perform bc ids step.clock step.op).2.drawn))
    (increasing' : StrictMonoOn ids' (Set.Iio (b'.perform bc ids' step'.clock step'.op).2.drawn))
    {e e' : Event} (taken : e.step = step) (taken' : e'.step = step')
    (response : e.response = (b.perform bc ids step.clock step.op).1)
    (response' : e'.response = (b'.perform bc ids' step'.clock step'.op).1) :
    ∃ S, Abreast bc ids ids' q (steps ++ [step]) (steps' ++ [step']) (kept ++ [(e, e')])
      (b.perform bc ids step.clock step.op).2 (b'.perform bc ids' step'.clock step'.op).2 S := by
  have here' : step'.op.on = some q ∨ step'.op.on = none := renamed.on ▸ here
  -- a renamed tag is a counterpart, or neither tag is in flight
  have names : step.op.Renamed (fun t t' => ∀ st st', b.queue q = some st → b'.queue q = some st' →
      Kin.Names R st st' t t') step'.op := by
    refine renamed.imp fun t t' tags st st' declared declared' => ?_
    rcases tags with returned | ⟨unknown, unknown'⟩
    · exact .inl (abreast.returned _ returned)
    · exact .inr ⟨fun member => unknown (abreast.flights st declared t member),
        fun member => unknown' (abreast.flights' st' declared' t' member)⟩
  have flights := flights_perform bc ids step.clock abreast.side.unlimited
    abreast.side.refines.held.utf8 here abreast.flights
  have flights' := flights_perform bc ids' step'.clock abreast.side'.unlimited
    abreast.side'.refines.held.utf8 here' abreast.flights'
  obtain ⟨same, S, wider, valid, shared⟩ :
      SameAnswer R step.op step'.op (b.perform bc ids step.clock step.op).1
          (b'.perform bc ids' step'.clock step'.op).1 ∧
        ∃ S, (∀ a a', R a a' → S a a') ∧
          (Links.ofIds S).Valid ids ids' (b.perform bc ids step.clock step.op).2.drawn
            (b'.perform bc ids' step'.clock step'.op).2.drawn ∧
          Shared S (b.perform bc ids step.clock step.op).2
            (b'.perform bc ids' step'.clock step'.op).2 q := by
    rw [← clock] at increasing' ⊢
    rcases here with on | none
    · exact shared_perform abreast.valid abreast.shared abreast.side.unlimited
        abreast.side'.unlimited on names increasing increasing'
    · obtain ⟨maxBytes, reopen⟩ := step.op.on_none none
      rw [reopen] at renamed increasing ⊢
      generalize step'.op = op' at renamed increasing' ⊢
      cases renamed
      exact ⟨.same _ _ rfl, shared_reopen abreast.valid abreast.shared
        abreast.side.refines.held.utf8 abreast.side'.refines.held.utf8 maxBytes increasing
        increasing'⟩
  rw [← response, ← response', ← taken, ← taken'] at same
  rw [← response] at flights
  rw [← response'] at flights'
  obtain ⟨firsts, seconds, related⟩ := returnedTags_of_rel same.tags
  refine ⟨S, side, side', valid, shared, ?_, ?_, ?_, abreast.answers.append same⟩
  · intro p member
    rw [tagPairs_append] at member
    rcases List.mem_append.mp member with old | new
    · exact wider _ _ (abreast.returned p old)
    · exact wider _ _ (related p new)
  · rwa [tagPairs_append, List.map_append, firsts]
  · rwa [tagPairs_append, List.map_append, seconds]

/-- What holds of the operations of the full run holds of those that are kept. -/
theorem Erased.forall_step {past past' : List Event} {kept : List (Event × Event)}
    (erased : Erased q past past' kept) {P : Operation → Prop}
    (same : ∀ {T op op'}, Operation.Renamed T op op' → P op → P op')
    (all : ∀ e ∈ past, P e.step.op) : ∀ e ∈ past', P e.step.op := by
  induction erased with
  | start => exact all
  | other before on different ih => exact ih fun e member => all e (List.mem_append_left _ member)
  | kept before here renamed clock ih =>
      intro e member
      rcases List.mem_append.mp member with old | new
      · exact ih (fun e member => all e (List.mem_append_left _ member)) e old
      · rw [List.mem_singleton.mp new]
        exact same renamed (all _ (List.mem_append_right _ List.mem_cons_self))

theorem Erased.nonColliding {past past' : List Event} {kept : List (Event × Event)}
    (erased : Erased q past past' kept)
    (apart : NonColliding (declaredNames (past.map Event.step))) :
    NonColliding (declaredNames (past'.map Event.step)) := by
  refine apart.subset ?_
  have declared := erased.forall_step
    (P := fun op => ∀ a ∈ op.declares, a ∈ declaredNames (past.map Event.step))
    (fun renamed known => by cases renamed <;> exact known)
    (fun e member a declares =>
      List.mem_flatMap_of_mem (List.mem_map_of_mem member) declares)
  intro a member
  obtain ⟨step, listed, declares⟩ := List.mem_flatMap.mp member
  obtain ⟨e, happened, rfl⟩ := List.mem_map.mp listed
  exact declared e happened a declares

theorem Erased.unlimited {past past' : List Event} {kept : List (Event × Event)}
    (erased : Erased q past past' kept) (unlimited : Unlimited (past.map Event.step)) :
    Unlimited (past'.map Event.step) := by
  have never := erased.forall_step
    (P := fun op => ∀ maxBytes, op = .reopen maxBytes → maxBytes = none)
    (fun renamed known => by cases renamed <;> first | exact known | exact fun _ => nofun)
    (fun e member => unlimited e.step (List.mem_map_of_mem member))
  intro step listed
  obtain ⟨e, happened, rfl⟩ := List.mem_map.mp listed
  exact never e happened

/-- A run as the comparison needs it. -/
structure Comparable (bc : Bincode) (ids : Nat → UInt64) (steps : List Step) : Prop where
  apart : NonColliding (declaredNames steps)
  unlimited : Unlimited steps
  increasing : Increasing ids (final bc ids (started bc ids none) steps)

theorem Comparable.before {steps : List Step} {step : Step}
    (run : Comparable bc ids (steps ++ [step])) : Comparable bc ids steps where
  apart := run.apart.upTo
  unlimited step listed := run.unlimited step (List.mem_append_left _ listed)
  increasing := run.increasing.before

/-- The next step, of the manager and of the broker. -/
theorem Comparable.step {steps : List Step} {step : Step} {b : Broker}
    (run : Comparable bc ids (steps ++ [step])) (side : Side bc ids steps b) :
    Side bc ids (steps ++ [step]) (b.perform bc ids step.clock step.op).2 ∧
      (performed bc ids (final bc ids (started bc ids none) steps) step).response =
        (b.perform bc ids step.clock step.op).1 ∧
      StrictMonoOn ids (Set.Iio (b.perform bc ids step.clock step.op).2.drawn) := by
  obtain ⟨next, response⟩ := side.step run.apart run.unlimited
  exact ⟨next, response, next.refines.increasing run.increasing⟩

theorem abreast_of_erased {past past' : List Event} {kept : List (Event × Event)}
    (erased : Erased q past past' kept) {steps steps' : List Step}
    (all : past = events bc ids (started bc ids none) steps)
    (all' : past' = events bc ids' (started bc ids' none) steps')
    (run : Comparable bc ids steps) (run' : Comparable bc ids' steps') :
    ∃ b b' R, Abreast bc ids ids' q steps steps' kept b b' R := by
  induction erased generalizing steps steps' with
  | start =>
      have empty : steps = [] := by rw [← events_steps bc ids _ steps, ← all]; rfl
      have empty' : steps' = [] := by rw [← events_steps bc ids' _ steps', ← all']; rfl
      subst empty empty'
      exact ⟨_, _, _, .start⟩
  | other before on different ih =>
      obtain ⟨steps, step, rfl, past, rfl⟩ := events_last bc ids all
      obtain ⟨b, b', R, abreast⟩ := ih past all' run.before run'
      obtain ⟨side, -, -⟩ := run.step abreast.side
      exact ⟨_, b', R, abreast.other on different side⟩
  | kept before here renamed clock ih =>
      obtain ⟨steps, step, rfl, past, rfl⟩ := events_last bc ids all
      obtain ⟨steps', step', rfl, past', rfl⟩ := events_last bc ids' all'
      obtain ⟨b, b', R, abreast⟩ := ih past past' run.before run'.before
      obtain ⟨side, response, increasing⟩ := run.step abreast.side
      obtain ⟨side', response', increasing'⟩ := run'.step abreast.side'
      obtain ⟨S, next⟩ := abreast.kept here renamed clock side side' increasing increasing' rfl rfl
        response response'
      exact ⟨_, _, S, next⟩

end Both

/-- A queue answers as if it were alone.  `kept` lists the operations on `q` and the restarts,
    paired with those of the run without the other queues. -/
theorem answers_without_other_queues (bc : Bincode) (ids ids' : Nat → UInt64) (q : String)
    (steps steps' : List Step) (kept : List (Event × Event))
    (erased : Erased q (events bc ids (started bc ids none) steps)
      (events bc ids' (started bc ids' none) steps') kept)
    (apart : NonColliding (declaredNames steps)) (unlimited : Unlimited steps)
    (increasing : Increasing ids (final bc ids (started bc ids none) steps))
    (increasing' : Increasing ids' (final bc ids' (started bc ids' none) steps')) :
    SameAnswers kept ∧
      ∀ p ∈ tagPairs kept, ∀ p' ∈ tagPairs kept, p.1 = p'.1 ↔ p.2 = p'.2 := by
  have apart' := erased.nonColliding
  have unlimited' := erased.unlimited
  rw [events_steps, events_steps] at apart' unlimited'
  obtain ⟨b, b', R, abreast⟩ := abreast_of_erased erased rfl rfl ⟨apart, unlimited, increasing⟩
    ⟨apart' apart, unlimited' unlimited, increasing'⟩
  refine ⟨abreast.answers, fun p member p' member' => ?_⟩
  exact abreast.valid.ordered_ofIds.eq_iff (abreast.returned p member) (abreast.returned p' member')

theorem Erased.skip {bc : Bincode} {ids : Nat → UInt64} {q name : String} {qm : QueueManager}
    {steps : List Step} {past' : List Event} {kept : List (Event × Event)}
    (erased : Erased q (events bc ids qm steps) past' kept) (op : Operation)
    (on : op.on = some name) (different : name ≠ q) (clock : Nat → Int64) :
    Erased q (events bc ids qm (steps ++ [⟨op, clock⟩])) past' kept := by
  rw [events_append]
  exact .other erased on different

theorem Erased.keep {bc : Bincode} {ids ids' : Nat → UInt64} {q : String} {qm qm' : QueueManager}
    {steps steps' : List Step} {kept : List (Event × Event)}
    (erased : Erased q (events bc ids qm steps) (events bc ids' qm' steps') kept)
    {op op' : Operation} (renamed : op.Renamed (Renames (tagPairs kept)) op')
    (here : op.on = some q ∨ op.on = none) (clock : Nat → Int64) :
    Erased q (events bc ids qm (steps ++ [⟨op, clock⟩])) (events bc ids' qm' (steps' ++ [⟨op', clock⟩]))
      (kept ++ [(performed bc ids (final bc ids qm steps) ⟨op, clock⟩,
        performed bc ids' (final bc ids' qm' steps') ⟨op', clock⟩)]) := by
  rw [events_append, events_append]
  exact .kept erased here renamed rfl

/-- Two queues in use; `aloneRun` is what is left of it for one of them. -/
def sharedRun : List Step :=
  [⟨.declareQueueWithRetention "b" default, fun _ => 0⟩,
    ⟨.declareQueueWithRetention "a" default, fun _ => 0⟩,
    ⟨.publish "b" ⟨9, [], [], 0, 0, 0, none, none⟩, fun _ => 0⟩,
    ⟨.publish "a" ⟨1, [], [], 0, 0, 0, none, none⟩, fun _ => 0⟩,
    ⟨.consume "a", fun _ => 0⟩,
    ⟨.consume "b", fun _ => 0⟩,
    ⟨.nack "a" 1, fun _ => 0⟩,
    ⟨.ack "a" 1, fun _ => 0⟩]

def aloneRun : List Step :=
  [⟨.declareQueueWithRetention "a" default, fun _ => 0⟩,
    ⟨.publish "a" ⟨1, [], [], 0, 0, 0, none, none⟩, fun _ => 0⟩,
    ⟨.consume "a", fun _ => 0⟩,
    ⟨.nack "a" 70, fun _ => 0⟩,
    ⟨.ack "a" 70, fun _ => 0⟩]

theorem sharedRun_erased : ∃ kept, tagPairs kept = [(1, 70)] ∧
    Erased "a" (events bincode (counter 0) (started bincode (counter 0) none) sharedRun)
      (events bincode (counter 70) (started bincode (counter 70) none) aloneRun) kept := by
  have empty : Erased "a" (events bincode (counter 0) (started bincode (counter 0) none) [])
      (events bincode (counter 70) (started bincode (counter 70) none) []) [] := .start
  have declared := (empty.skip (.declareQueueWithRetention "b" default) rfl (by decide) fun _ => 0).keep
    (.declare "a" default) (.inl rfl) fun _ => 0
  have published := (declared.skip (.publish "b" ⟨9, [], [], 0, 0, 0, none, none⟩) rfl (by decide)
    fun _ => 0).keep (.publish "a" ⟨1, [], [], 0, 0, 0, none, none⟩) (.inl rfl) fun _ => 0
  have consumed := (published.keep (.consume "a") (.inl rfl) fun _ => 0).skip (.consume "b") rfl
    (by decide) fun _ => 0
  have nacked := consumed.keep (.nack "a" (.inl (by decide +kernel : ((1 : UInt64), (70 : UInt64)) ∈ _)))
    (.inl rfl) fun _ => 0
  have acked := nacked.keep (.ack "a" (.inl (by decide +kernel : ((1 : UInt64), (70 : UInt64)) ∈ _)))
    (.inl rfl) fun _ => 0
  exact ⟨_, by decide +kernel, acked⟩

theorem sharedRun_answers :
    ∃ kept, tagPairs kept = [(1, 70)] ∧ SameAnswers kept ∧
      ∀ p ∈ tagPairs kept, ∀ p' ∈ tagPairs kept, p.1 = p'.1 ↔ p.2 = p'.2 := by
  have drawn : (final bincode (counter 0) (started bincode (counter 0) none) sharedRun).db.drawn =
      3 := by
    decide +kernel
  have drawn' : (final bincode (counter 70) (started bincode (counter 70) none) aloneRun).db.drawn =
      2 := by
    decide +kernel
  obtain ⟨kept, pairs, erased⟩ := sharedRun_erased
  exact ⟨kept, pairs, answers_without_other_queues bincode (counter 0) (counter 70) "a" sharedRun
    aloneRun kept erased (by decide) (by simp [Unlimited, sharedRun])
    (counter_increasing (by rw [drawn]; decide)) (counter_increasing (by rw [drawn']; decide))⟩

end PelicanQ
