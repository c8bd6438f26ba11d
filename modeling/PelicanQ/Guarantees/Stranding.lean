import PelicanQ.Guarantees.Abandonment

/-! # What consumers strand

The books of a whole run: everything that the pollers of connections and the tasks of
streams took is held by an open connection or a stream, was acknowledged, was handed to
the client of a stream, or was stranded at a known point of the run.  So a delivery is
in flight with nobody to settle it exactly when it came loose and no client named it.
-/

namespace PelicanQ

open Holdings

namespace Daemon

/-- The books of a run: what the consumers took, what their acks settled, what the clients of streams
    took over, each with its stream, and what was stranded. -/
structure Books where
  taken : Multiset (String × DeliveryTag)
  acked : Multiset (String × DeliveryTag)
  handed : Multiset (Nat × String × DeliveryTag)
  stranded : Multiset (String × DeliveryTag)

def Books.empty : Books := ⟨0, 0, 0, 0⟩

/-- What the client of a stream takes, with the stream. -/
def System.handsTo (S : System) : Happening → Multiset (Nat × String × DeliveryTag)
  | .stream k act => (S.hands (.stream k act)).map (k, ·)
  | _ => 0

/-- The `k`-th stream is open and its task has not returned. -/
def System.streaming (S : System) (k : Nat) : Bool := S.streams[k]?.any (·.running)

/-- The client of a stream that is still served has a delivery. -/
def Books.WithClient (books : Books) (S : System) (x : String × DeliveryTag) : Prop :=
  ∃ k, (k, x) ∈ books.handed ∧ S.streaming k = true

/-- A delivery was stranded, or its stream ended with the delivery at the client. -/
def Books.Loose (books : Books) (S : System) (x : String × DeliveryTag) : Prop :=
  x ∈ books.stranded ∨ ∃ k, (k, x) ∈ books.handed ∧ S.streaming k = false

/-- Whatever the consumers took and is in flight is with an open connection, on its way through a
    stream, or with the client of a stream that is still served. -/
def NoneStranded (S : System) (books : Books) : Prop :=
  ∀ x ∈ books.taken, InFlight S.manager x.1 x.2 → x ∈ S.held ∨ books.WithClient S x

section Runs

variable (bc : Bincode) (uuid : UuidText) (formats : Http.Formats) (ids : Nat → UInt64)
  (engine : AppEngine)

def Books.next (S : System) (around : Surroundings) (books : Books) (happening : Happening) : Books where
  taken := books.taken + S.consumes bc ids engine around happening
  acked := books.acked + S.acks bc ids engine around happening
  handed := books.handed + S.handsTo happening
  stranded := books.stranded + S.strands bc ids engine around happening

def booksOf (S : System) (books : Books) : List (Happening × Surroundings) → Books
  | [] => books
  | happening :: rest =>
      booksOf (S.step bc uuid formats ids engine happening.2 happening.1)
        (books.next bc ids engine S happening.2 happening.1) rest

/-- A client names a delivery that is in flight, and it is not any more. -/
def SettlesByName (S : System) (x : String × DeliveryTag) (happening : Happening × Surroundings) : Prop :=
  happening.1.Names x ∧ InFlight S.manager x.1 x.2 ∧
    ¬ InFlight (S.step bc uuid formats ids engine happening.2 happening.1).manager x.1 x.2

/-- Some client of the run settles a delivery by its name. -/
def SettledByName (S : System) (x : String × DeliveryTag) : List (Happening × Surroundings) → Prop
  | [] => False
  | happening :: rest =>
      SettlesByName bc uuid formats ids engine S x happening ∨
        SettledByName (S.step bc uuid formats ids engine happening.2 happening.1) x rest

variable {bc uuid formats ids engine} {S S' start : System} {books : Books}
  {x : String × DeliveryTag} {run : List (Happening × Surroundings)}

theorem booksOf_snoc (last : Happening × Surroundings) :
    booksOf bc uuid formats ids engine S books (run ++ [last]) =
      (booksOf bc uuid formats ids engine S books run).next bc ids engine
        (S.final bc uuid formats ids engine run) last.2 last.1 := by
  induction run generalizing S books with
  | nil => rfl
  | cons happening run ih => exact ih

theorem settledByName_snoc (last : Happening × Surroundings) :
    SettledByName bc uuid formats ids engine S x (run ++ [last]) ↔
      SettledByName bc uuid formats ids engine S x run ∨
        SettlesByName bc uuid formats ids engine (S.final bc uuid formats ids engine run) x last := by
  induction run generalizing S with
  | nil => simp [SettledByName, System.final]
  | cons happening run ih =>
      rw [List.cons_append, SettledByName, ih, SettledByName, or_assoc]
      rfl

theorem System.handsTo_map (S : System) (happening : Happening) :
    (S.handsTo happening).map Prod.snd = S.hands happening := by
  cases happening with
  | stream k act =>
      rw [handsTo, Multiset.map_map]
      exact Multiset.map_id _
  | _ => rfl

/-- What is settled by a connection was with it. -/
theorem System.acks_le_held (S : System) (around : Surroundings) (happening : Happening) :
    S.acks bc ids engine around happening ≤ S.held := by
  cases happening with
  | session k act =>
      by_cases present : ∃ s, S.sessions[k]? = some (some s)
      · obtain ⟨s, there⟩ := present
        have acks : S.acks bc ids engine around (.session k act) =
            s.acks bc ids engine (S.world around) act := by simp only [System.acks, there]
        have part : s.connection.held ≤ (S.sessions.map Mqtt.heldBy).sum := by
          refine List.single_le_sum (fun _ _ => Multiset.zero_le _) _ ?_
          exact List.mem_map.mpr ⟨some s, List.mem_of_getElem? there, rfl⟩
        rw [acks]
        exact le_trans (Mqtt.acks_le_held s _ act) (le_trans part (Multiset.le_add_right _ _))
      · have aside : Happening.Aside S (.session k act) := fun s there => present ⟨s, there⟩
        rw [(aside.books bc ids engine around).2.1]
        exact Multiset.zero_le _
  | _ => exact Multiset.zero_le _

/-- A consumer that consumes names nothing. -/
theorem System.consumes_unnamed {around : Surroundings} {happening : Happening}
    (member : x ∈ S.consumes bc ids engine around happening) : ¬ happening.Names x := by
  have nothing {P : Prop} (member : x ∈ (0 : Multiset (String × DeliveryTag))) : P :=
    absurd member (Multiset.notMem_zero x)
  cases happening with
  | session | stray => exact id
  | stream k act =>
      cases act with
      | tick => exact id
      | inbound message =>
          simp only [System.consumes, Grpc.Stream.consumes] at member
          split at member <;> exact nothing member
      | send | take | close => exact id
  | request | entry | connect | openStream | restart => exact nothing member

variable (bc uuid formats ids engine) in
/-- The books of a run against its events. -/
structure Account (start : System) (run : List (Happening × Surroundings)) (S : System) (books : Books)
    (before : List Event) : Prop where
  balances : books.taken = S.held + books.acked + books.handed.map Prod.snd + books.stranded
  taken : books.taken ≤ issued before
  acked : ∀ x ∈ books.acked, ¬ ∃ m, Outstanding before x.1 x.2 m
  outstanding : ∀ x ∈ books.taken, x ∈ books.acked ∨ (∃ m, Outstanding before x.1 x.2 m) ∨
    SettledByName bc uuid formats ids engine start x run
  named : ∀ x, SettledByName bc uuid formats ids engine start x run →
    x ∈ issued before ∧ ¬ ∃ m, Outstanding before x.1 x.2 m

section Next

variable {before more : List Event} {around : Surroundings} {happening : Happening}

theorem Account.held_issued (account : Account bc uuid formats ids engine start run S books before) :
    S.held ≤ issued before := by
  refine le_trans ?_ account.taken
  rw [account.balances, add_assoc, add_assoc]
  exact Multiset.le_add_right _ _

theorem Account.acked_taken (account : Account bc uuid formats ids engine start run S books before)
    (member : x ∈ books.acked) : x ∈ books.taken := by
  rw [account.balances]
  simp only [Multiset.mem_add, member, or_true, true_or]

variable (account : Account bc uuid formats ids engine start run S books before)
  (booked : Booked bc ids engine S around happening S' more) (once : (issued (before ++ more)).Nodup)

include account booked in
theorem Account.next_balances :
    (books.next bc ids engine S around happening).taken = S'.held +
      (books.next bc ids engine S around happening).acked +
      (books.next bc ids engine S around happening).handed.map Prod.snd +
      (books.next bc ids engine S around happening).stranded := by
  have moved := booked.balances
  rw [Balances] at moved
  rw [Books.next, Multiset.map_add, System.handsTo_map]
  calc books.taken + S.consumes bc ids engine around happening
      = (S.held + S.consumes bc ids engine around happening) + books.acked +
          books.handed.map Prod.snd + books.stranded := by
        rw [account.balances]
        ac_rfl
    _ = S'.held + (books.acked + S.acks bc ids engine around happening) +
          (books.handed.map Prod.snd + S.hands happening) +
          (books.stranded + S.strands bc ids engine around happening) := by
        rw [moved]
        ac_rfl

include once in
/-- What was issued before is not issued again. -/
theorem not_issued_again (old : x ∈ issued before) : x ∉ issued more := by
  rw [issued_append] at once
  exact Multiset.disjoint_left.mp (Multiset.disjoint_of_nodup_add once) old

include once in
/-- What was issued and is not outstanding does not get so again. -/
theorem settled_append (old : x ∈ issued before) (gone : ¬ ∃ m, Outstanding before x.1 x.2 m) :
    ¬ ∃ m, Outstanding (before ++ more) x.1 x.2 m := by
  rintro ⟨m, outstanding⟩
  exact gone ⟨m, (outstanding.earlier (not_issued_again once old)).1⟩

include once in
/-- Nor is what an event has settled outstanding. -/
theorem settled_now (old : x ∈ issued before) {e : Event} (member : e ∈ more)
    (settles : e.Settles x.1 x.2) : ¬ ∃ m, Outstanding (before ++ more) x.1 x.2 m := by
  rintro ⟨m, outstanding⟩
  exact ((outstanding.earlier (not_issued_again once old)).2 e member).1 settles

include account booked once in
theorem Account.next_acked : ∀ x ∈ (books.next bc ids engine S around happening).acked,
    ¬ ∃ m, Outstanding (before ++ more) x.1 x.2 m := by
  intro x member
  rcases Multiset.mem_add.mp member with old | new
  · exact settled_append once (Multiset.mem_of_le account.taken (account.acked_taken old))
      (account.acked x old)
  · obtain ⟨e, made, settles⟩ := booked.acked x.1 x.2 new
    have held := Multiset.mem_of_le (S.acks_le_held around happening) new
    exact settled_now once (Multiset.mem_of_le account.held_issued held) made settles

variable (flying : ∀ q tag, InFlight S.manager q tag ↔ ∃ m, Outstanding before q tag m)
  (flying' : ∀ q tag, InFlight S'.manager q tag ↔ ∃ m, Outstanding (before ++ more) q tag m)
  (stepped : S' = S.step bc uuid formats ids engine around happening)

include booked in
/-- No event of a happening settles a delivery, a connection acks it, or it is named. -/
theorem Booked.settled (x : String × DeliveryTag) :
    (∀ e ∈ more, ¬ e.Settles x.1 x.2 ∧ ¬ e.Reopens) ∨
      ∃ e ∈ more, e.Settles x.1 x.2 ∧
        (x ∈ S.acks bc ids engine around happening ∨ happening.Names x) := by
  by_cases settled : ∃ e ∈ more, e.Settles x.1 x.2
  · obtain ⟨e, made, settles⟩ := settled
    exact .inr ⟨e, made, settles, booked.settles e made x.1 x.2 settles⟩
  · exact .inl fun e made => ⟨fun settles => settled ⟨e, made, settles⟩, booked.lives e made⟩

include account booked once flying flying' stepped in
theorem Account.next_outstanding (member : x ∈ (books.next bc ids engine S around happening).taken) :
    x ∈ (books.next bc ids engine S around happening).acked ∨
      (∃ m, Outstanding (before ++ more) x.1 x.2 m) ∨
        SettledByName bc uuid formats ids engine start x run ∨
          SettlesByName bc uuid formats ids engine S x (happening, around) := by
  rcases Multiset.mem_add.mp member with old | new
  · rcases account.outstanding x old with acked | ⟨m, outstanding⟩ | named
    · exact .inl (Multiset.mem_add.mpr (.inl acked))
    · rcases booked.settled x with quiet | ⟨e, made, settles, acked | names⟩
      · exact .inr (.inl ⟨m, outstanding.append quiet⟩)
      · exact .inl (Multiset.mem_add.mpr (.inr acked))
      · refine .inr (.inr (.inr ⟨names, (flying _ _).mpr ⟨m, outstanding⟩, ?_⟩))
        rw [← stepped, flying']
        exact settled_now once (Multiset.mem_of_le account.taken old) made settles
    · exact .inr (.inr (.inl named))
  · have issued := Multiset.mem_of_le booked.consumed new
    rcases booked.settled x with quiet | ⟨e, made, settles, acked | names⟩
    · exact .inr (.inl (outstanding_issued quiet issued))
    · exact .inl (Multiset.mem_add.mpr (.inr acked))
    · exact absurd names (System.consumes_unnamed new)

include account once flying flying' stepped in
theorem Account.next_named (named : SettledByName bc uuid formats ids engine start x run ∨
    SettlesByName bc uuid formats ids engine S x (happening, around)) :
    x ∈ issued (before ++ more) ∧ ¬ ∃ m, Outstanding (before ++ more) x.1 x.2 m := by
  rw [issued_append, Multiset.mem_add]
  rcases named with earlier | ⟨-, before, after⟩
  · obtain ⟨old, gone⟩ := account.named x earlier
    exact ⟨.inl old, settled_append once old gone⟩
  · obtain ⟨m, outstanding⟩ := (flying _ _).mp before
    rw [← stepped, flying'] at after
    exact ⟨.inl outstanding.issued, after⟩

end Next

section Placed

variable {before : List Event}
  (account : Account bc uuid formats ids engine start run S books before)

theorem Books.handed_cases (member : x ∈ books.handed.map Prod.snd) (S : System) :
    books.WithClient S x ∨ ∃ k, (k, x) ∈ books.handed ∧ S.streaming k = false := by
  obtain ⟨⟨k, _⟩, inside, rfl⟩ := Multiset.mem_map.mp member
  cases streaming : S.streaming k with
  | true => exact .inl ⟨k, inside, streaming⟩
  | false => exact .inr ⟨k, inside, streaming⟩

include account in
/-- Where a delivery is that a consumer took. -/
theorem Account.placed (member : x ∈ books.taken) :
    x ∈ books.acked ∨ (x ∈ S.held ∨ books.WithClient S x) ∨ books.Loose S x := by
  rw [account.balances] at member
  rcases Multiset.mem_add.mp member with kept | stranded
  · rcases Multiset.mem_add.mp kept with kept | handed
    · exact (Multiset.mem_add.mp kept).elim (fun held => .inr (.inl (.inl held))) .inl
    · exact (Books.handed_cases handed S).elim (fun client => .inr (.inl (.inr client)))
        fun ended => .inr (.inr (.inr ended))
  · exact .inr (.inr (.inl stranded))

include account in
/-- What came loose is nowhere else, if nothing was taken twice. -/
theorem Account.loose_alone (once : books.taken.Nodup) (loose : books.Loose S x) :
    x ∈ books.taken ∧ x ∉ books.acked ∧ x ∉ S.held ∧ ¬ books.WithClient S x := by
  have balances := account.balances
  rw [balances] at once ⊢
  obtain ⟨most, -, strandedApart⟩ := Multiset.nodup_add.mp once
  obtain ⟨-, distinct, handedApart⟩ := Multiset.nodup_add.mp most
  have handed {k : Nat} (member : (k, x) ∈ books.handed) : x ∈ books.handed.map Prod.snd :=
    Multiset.mem_map_of_mem Prod.snd member
  rcases loose with stranded | ⟨k, member, ended⟩
  · have apart := Multiset.disjoint_right.mp strandedApart stranded
    simp only [Multiset.mem_add, not_or] at apart
    refine ⟨Multiset.mem_add.mpr (.inr stranded), apart.1.2, apart.1.1, ?_⟩
    rintro ⟨k, member, -⟩
    exact apart.2 (handed member)
  · have apart := Multiset.disjoint_right.mp handedApart (handed member)
    simp only [Multiset.mem_add, not_or] at apart
    refine ⟨?_, apart.2, apart.1, ?_⟩
    · simp only [Multiset.mem_add, handed member, or_true, true_or]
    · -- it was handed to one client only
      rintro ⟨k', member', streaming⟩
      cases Multiset.inj_on_of_nodup_map distinct _ member _ member' rfl
      rw [ended] at streaming
      cases streaming

end Placed

variable (bc uuid formats ids engine) (maxBytes : Option UInt64)

/-- The books of every run without a restart agree with its events. -/
theorem account_run {names : List String} (apart : NonColliding names)
    (run : List (Happening × Surroundings))
    (inside : ∀ happening ∈ run, ∀ name ∈ happening.1.declares, name ∈ names)
    (lives : ∀ happening ∈ run, ∀ maxBytes, happening.1 ≠ .restart maxBytes)
    (increasing : Increasing ids
      ((System.started bc ids engine maxBytes).final bc uuid formats ids engine run).manager) :
    ∃ steps : List Step, (∀ step ∈ steps, step.op.Served names) ∧
      ((System.started bc ids engine maxBytes).final bc uuid formats ids engine run).manager =
        final bc ids (started bc ids (limitOf engine maxBytes)) steps ∧
      Account bc uuid formats ids engine (System.started bc ids engine maxBytes) run
        ((System.started bc ids engine maxBytes).final bc uuid formats ids engine run)
        (booksOf bc uuid formats ids engine (System.started bc ids engine maxBytes) .empty run)
        (events bc ids (started bc ids (limitOf engine maxBytes)) steps) := by
  induction run using List.reverseRecOn with
  | nil =>
      refine ⟨[], fun _ member => absurd member List.not_mem_nil,
        started_manager bc ids engine maxBytes, ?_⟩
      exact {
        balances := rfl
        taken := Multiset.zero_le _
        acked := fun _ member => absurd member (Multiset.notMem_zero _)
        outstanding := fun _ member => absurd member (Multiset.notMem_zero _)
        named := fun _ named => named.elim }
  | append_singleton run last ih =>
      obtain ⟨happening, around⟩ := last
      have stepped : (System.started bc ids engine maxBytes).final bc uuid formats ids engine
          (run ++ [(happening, around)]) =
            ((System.started bc ids engine maxBytes).final bc uuid formats ids engine run).step bc uuid
              formats ids engine around happening := List.foldl_append
      obtain ⟨insideRun, insideLast⟩ := List.forall_mem_append.mp inside
      obtain ⟨livesRun, livesLast⟩ := List.forall_mem_append.mp lives
      rw [stepped] at increasing ⊢
      obtain ⟨-, -, -, -, keeping⟩ := kept_run bc uuid formats ids engine maxBytes run insideRun
      obtain ⟨steps', served', reached', booked⟩ : ∃ steps' : List Step, _ ∧ _ ∧
          Booked bc ids engine ((System.started bc ids engine maxBytes).final bc uuid formats ids engine
            run) around happening _ (events bc ids _ steps') :=
        (System.step_hands engine around uuid formats keeping happening
          (insideLast _ (List.mem_singleton_self _)) (livesLast _ (List.mem_singleton_self _))).booked
      -- ids that increase to the end increase up to here
      have reaches : Reaches bc ids (fun _ => True) _ _ := ⟨steps', fun _ _ => trivial, reached'⟩
      have earlier := reaches.increasing increasing
      obtain ⟨steps, served, reached, account⟩ := ih insideRun livesRun earlier
      rw [reached] at earlier
      have both := List.forall_mem_append.mpr ⟨served, served'⟩
      rw [reached, ← PelicanQ.final_append] at reached'
      rw [reached'] at increasing
      obtain ⟨-, flying⟩ := linear_run bc ids served apart earlier
      obtain ⟨once, flying'⟩ := linear_run bc ids both apart increasing
      rw [← reached] at flying
      rw [← reached', events_append, ← reached] at flying'
      rw [events_append, ← reached] at once
      refine ⟨steps ++ steps', both, reached', ?_⟩
      rw [booksOf_snoc, events_append, ← reached]
      exact {
        balances := account.next_balances booked
        taken := issued_append _ _ ▸ add_le_add account.taken booked.consumed
        acked := account.next_acked booked once
        outstanding := fun x member => by
          rw [settledByName_snoc]
          exact account.next_outstanding booked once flying flying' rfl member
        named := fun x named => by
          rw [settledByName_snoc] at named
          exact account.next_named once flying flying' rfl named }

/-- A stream with a delivery in its channel. -/
def sentStream : List (Happening × Surroundings) :=
  [.request (.grpc (.declareQueue ⟨"q", none, none, none, none⟩)),
    .request (.grpc (.publish "q" (some plainProto))), .openStream,
    .stream 0 (.inbound (some (.ok ⟨some "q", none, none⟩))), .stream 0 .tick,
    .stream 0 .send].map (·, calm 0)

/-- The client takes the delivery, acknowledges it and ends the stream. -/
def settledStream : List (Happening × Surroundings) :=
  sentStream ++ [(.stream 0 .take, calm 0)] ++
    [(.stream 0 (.inbound (some (.ok ⟨none, some 0, none⟩))), calm 0)] ++
    [(.stream 0 (.inbound none), calm 0)]

/-- The client stops receiving and ends the stream. -/
def closedStream : List (Happening × Surroundings) :=
  sentStream ++ [(.stream 0 .close, calm 0), (.stream 0 (.inbound none), calm 0)]

/-- The books of a run. -/
def booksAfter (run : List (Happening × Surroundings)) : Books :=
  booksOf bincode byteUuid noFormats (counter 0) .solo (System.started bincode (counter 0) .solo none)
    .empty run

end Runs

end Daemon

end PelicanQ
