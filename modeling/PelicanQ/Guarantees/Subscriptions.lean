import PelicanQ.Guarantees.Replies

/-! # Subscriptions

A connection holds the handles of the queues that its client has subscribed to and not
unsubscribed from, one for each.  A filter with wildcards subscribes to nothing.  The
poller behind a handle runs until it is aborted or one of its consumes panics, and
another subscription to its queue does not replace it.
-/

namespace PelicanQ.Mqtt

open Daemon (World)

/-- The queues of the handles a connection holds. -/
def Connection.queues (c : Connection) : List String := c.subscriptions.map (·.queue)

/-- For each handle its queue, and whether its poller runs. -/
def Connection.pollers (c : Connection) : List (String × Bool) :=
  c.subscriptions.map fun poller => (poller.queue, poller.running)

/-- A filter is handled that is the name of a queue. -/
def Turn.Subscribes (t : Turn) (q : String) : Prop :=
  t.act = .proceed ∧ hasWildcard q = false ∧
    ∃ pkid qos rest codes, t.before.phase = .subscribing pkid ((q, qos) :: rest) codes

/-- One is handled while there is no handle for its queue. -/
def Turn.Spawns (t : Turn) (q : String) : Prop :=
  t.Subscribes q ∧ q ∉ t.before.connection.queues

def Turn.Unsubscribes (t : Turn) (q : String) : Prop :=
  ∃ pkid topics, t.handles = some (.unsubscribe pkid topics) ∧ q ∈ topics

/-- The poller of a queue consumes, and panics. -/
def Turn.Breaks (bc : Bincode) (ids : Nat → UInt64) (engine : AppEngine) (t : Turn) (q : String) :
    Prop :=
  ∃ i, t.act = .tick i ∧ t.before.connection.subscriptions[i]? = some (.new q) ∧
    ((consumeOne bc engine q).run (Daemon.handle ids) t.world).1.returns = false

/-! ## One act -/

/-- What a turn does to the handles and to the pollers behind them. -/
structure Polls (bc : Bincode) (ids : Nat → UInt64) (engine : AppEngine) (t : Turn)
    (c : Connection) : Prop where
  mem : ∀ q, q ∈ c.queues ↔ t.Subscribes q ∨ (q ∈ t.before.connection.queues ∧ ¬ t.Unsubscribes q)
  nodup : t.before.connection.queues.Nodup → c.queues.Nodup
  runs : t.before.connection.queues.Nodup → ∀ q, (q, true) ∈ c.pollers ↔ t.Spawns q ∨
    ((q, true) ∈ t.before.connection.pollers ∧ ¬ t.Unsubscribes q ∧ ¬ t.Breaks bc ids engine q)

section Acts

variable {bc : Bincode} {ids : Nat → UInt64} {engine : AppEngine} {t : Turn} {c : Connection}

theorem queues_eq (c : Connection) : c.queues = c.pollers.map Prod.fst := by
  simp only [Connection.queues, Connection.pollers, List.map_map, Function.comp_def]

theorem Polls.of_same (unsubscribed : ∀ q, ¬ t.Subscribes q) (kept : ∀ q, ¬ t.Unsubscribes q)
    (unbroken : ∀ q, ¬ t.Breaks bc ids engine q)
    (same : c.pollers = t.before.connection.pollers) : Polls bc ids engine t c := by
  have queues : c.queues = t.before.connection.queues := by rw [queues_eq, same, ← queues_eq]
  refine ⟨fun q => ?_, fun once => queues ▸ once, fun _ q => ?_⟩
  · simp [queues, unsubscribed, kept]
  · simp [same, Turn.Spawns, unsubscribed, kept, unbroken]

theorem pollers_setPoller (c : Connection) (i : Nat) (new : Poller) :
    (c.setPoller i new).pollers = c.pollers.set i (new.queue, new.running) := List.map_set

/-- A poller that changes only what it holds. -/
theorem pollers_kept {i : Nat} {old new : Poller} (present : c.subscriptions[i]? = some old)
    (queue : new.queue = old.queue) (running : new.running = old.running) :
    (c.setPoller i new).pollers = c.pollers := by
  have named : c.pollers[i]? = some (new.queue, new.running) := by
    rw [Connection.pollers, List.getElem?_map, present, queue, running]
    rfl
  obtain ⟨inside, here⟩ := List.getElem?_eq_some_iff.mp named
  rw [pollers_setPoller, ← here, List.set_getElem_self]

theorem pollers_handOver (c : Connection) (i : Nat) : (c.handOver i).pollers = c.pollers := by
  unfold Connection.handOver
  split
  · rename_i q delivery present
    split_ifs
    · exact pollers_kept present rfl rfl
    · rfl
  · rfl

theorem mem_queues {q : String} :
    (c.subscriptions.any (·.queue == q)) = true ↔ q ∈ c.queues := by
  rw [List.any_eq_true, Connection.queues, List.mem_map]
  exact exists_congr fun poller => and_congr_right fun _ => beq_iff_eq

/-- The handles after a filter. -/
theorem pollers_subscribed (c : Connection) (path : String) :
    ((c.subscribed path).pollers = c.pollers ∧ (hasWildcard path = true ∨ path ∈ c.queues)) ∨
      ((c.subscribed path).pollers = c.pollers ++ [(path, true)] ∧ hasWildcard path = false ∧
        path ∉ c.queues) := by
  unfold Connection.subscribed
  by_cases wildcard : hasWildcard path = true
  · rw [if_pos wildcard]
    exact .inl ⟨rfl, .inl wildcard⟩
  · rw [if_neg wildcard]
    by_cases known : (c.subscriptions.any (·.queue == path)) = true
    · rw [if_pos known]
      exact .inl ⟨rfl, .inr (mem_queues.mp known)⟩
    · rw [if_neg known]
      refine .inr ⟨?_, Bool.eq_false_iff.mpr wildcard, fun old => known (mem_queues.mpr old)⟩
      simp [Connection.pollers, Poller.new]

/-- A filter that is handled. -/
theorem polls_subscribed {path : String} (kept : ∀ q, ¬ t.Unsubscribes q)
    (unbroken : ∀ q, ¬ t.Breaks bc ids engine q)
    (subscribes : ∀ q, t.Subscribes q ↔ q = path ∧ hasWildcard path = false) :
    Polls bc ids engine t (t.before.connection.subscribed path) := by
  rcases pollers_subscribed t.before.connection path with ⟨same, reason⟩ | ⟨added, plain, new⟩
  · have queues : (t.before.connection.subscribed path).queues = t.before.connection.queues := by
      rw [queues_eq, same, ← queues_eq]
    have known (q) (named : t.Subscribes q) : q ∈ t.before.connection.queues := by
      obtain ⟨rfl, plain⟩ := (subscribes q).mp named
      exact reason.resolve_left (Bool.eq_false_iff.mp plain)
    refine ⟨fun q => ?_, fun once => queues ▸ once, fun _ q => ?_⟩
    · rw [queues, and_iff_left (kept q)]
      exact ⟨.inr, fun either => either.elim (known q) id⟩
    · have stays : ¬ t.Unsubscribes q ∧ ¬ t.Breaks bc ids engine q := ⟨kept q, unbroken q⟩
      rw [same, and_iff_left stays]
      exact ⟨.inr, fun either => either.resolve_left fun spawns => spawns.2 (known q spawns.1)⟩
  · have queues : (t.before.connection.subscribed path).queues =
        t.before.connection.queues ++ [path] := by
      rw [queues_eq, added, List.map_append, ← queues_eq]
      rfl
    refine ⟨fun q => ?_, fun once => ?_, fun _ q => ?_⟩
    · rw [queues, subscribes, and_iff_left (kept q)]
      simp [plain, or_comm]
    · rw [queues]
      refine List.nodup_append.mpr ⟨once, List.nodup_singleton _, fun q old q' last same => ?_⟩
      rw [List.mem_singleton.mp last] at same
      exact new (same ▸ old)
    · have stays : ¬ t.Unsubscribes q ∧ ¬ t.Breaks bc ids engine q := ⟨kept q, unbroken q⟩
      rw [added, Turn.Spawns, subscribes, and_iff_left stays, List.mem_append,
        List.mem_singleton, or_comm]
      refine or_congr_left ⟨fun same => ?_, fun spawns => ?_⟩
      · cases same
        exact ⟨⟨rfl, plain⟩, new⟩
      · rw [spawns.1.1]

theorem polls_proceed (proceeds : t.act = .proceed) :
    Polls bc ids engine t (proceeded t.before) := by
  have kept (q) : ¬ t.Unsubscribes q := by
    rintro ⟨pkid, topics, handles, -⟩
    simp [Turn.handles, proceeds] at handles
  have unbroken (q) : ¬ t.Breaks bc ids engine q := by
    rintro ⟨i, ticks, -⟩
    rw [proceeds] at ticks
    cases ticks
  obtain ⟨a, w, ⟨phase, c⟩, after, left⟩ := t
  cases phase with
  | waiting | publishing =>
      refine .of_same (fun q subscribes => ?_) kept unbroken rfl
      obtain ⟨-, -, _, _, _, _, phase⟩ := subscribes
      cases phase
  | subscribing pkid filters codes =>
      cases filters with
      | nil =>
          refine .of_same (fun q subscribes => ?_) kept unbroken rfl
          obtain ⟨-, -, _, _, _, _, phase⟩ := subscribes
          cases phase
      | cons filter rest =>
          refine polls_subscribed kept unbroken fun q => ⟨?_, ?_⟩
          · rintro ⟨-, plain, _, _, _, _, phase⟩
            cases phase
            exact ⟨rfl, plain⟩
          · rintro ⟨rfl, plain⟩
            exact ⟨proceeds, plain, pkid, filter.2, rest, codes, rfl⟩

/-- The handles after an unsubscription. -/
theorem pollers_without (c : Connection) (topics : List String) :
    (c.without topics).pollers = c.pollers.filter (!topics.contains ·.1) := by
  rw [Connection.pollers, Connection.pollers, List.filter_map]
  rfl

theorem queues_without (c : Connection) (topics : List String) :
    (c.without topics).queues = c.queues.filter (!topics.contains ·) := by
  rw [Connection.queues, Connection.queues, List.filter_map]
  rfl

/-- A turn that is neither the loop's handling of a packet nor a tick. -/
theorem Polls.apart (unhandled : t.handles = none) (unsubscribed : t.act ≠ .proceed)
    (unbroken : ∀ q, ¬ t.Breaks bc ids engine q)
    (same : c.pollers = t.before.connection.pollers) : Polls bc ids engine t c := by
  refine .of_same (fun q subscribes => unsubscribed subscribes.1) (fun q unsubscribes => ?_)
    unbroken same
  obtain ⟨_, _, handles, -⟩ := unsubscribes
  rw [unhandled] at handles
  cases handles

theorem polls_packet {packet : Packet} {w : World} {s : Session}
    (left : (turn bc ids engine ⟨.waiting, c⟩ (.packet packet) w).1 = some s) :
    Polls bc ids engine (taken bc ids engine ⟨.waiting, c⟩ (.packet packet) w) s.connection := by
  have unsubscribed (q) : ¬ (taken bc ids engine ⟨.waiting, c⟩ (.packet packet) w).Subscribes q :=
    fun subscribes => absurd subscribes.1 (by simp [taken])
  have unbroken (q) :
      ¬ (taken bc ids engine ⟨.waiting, c⟩ (.packet packet) w).Breaks bc ids engine q := by
    rintro ⟨i, ticks, -⟩
    simp [taken] at ticks
  by_cases leave : ∃ pkid topics, packet = .unsubscribe pkid topics
  · obtain ⟨pkid, topics, rfl⟩ := leave
    rw [turn_unsubscribe] at left
    split_ifs at left
    cases left
    have named (q) : (taken bc ids engine ⟨.waiting, c⟩ (.packet (.unsubscribe pkid topics))
        w).Unsubscribes q ↔ q ∈ topics := by
      refine ⟨?_, fun named => ⟨pkid, topics, rfl, named⟩⟩
      rintro ⟨_, _, same, named⟩
      cases same
      exact named
    refine ⟨fun q => ?_, fun once => ?_, fun _ q => ?_⟩
    · rw [queues_without, or_iff_right (unsubscribed q), named]
      simp [taken]
    · rw [queues_without]
      exact once.filter _
    · rw [pollers_without, or_iff_right fun spawns => unsubscribed q spawns.1, named,
        and_iff_left (unbroken q)]
      simp [taken]
  · refine .of_same unsubscribed (fun q unsubscribes => ?_) unbroken ?_
    · obtain ⟨pkid, topics, same, -⟩ := unsubscribes
      exact leave ⟨pkid, topics, Option.some.inj same⟩
    · by_cases ack : ∃ pkid, packet = .pubAck pkid
      · obtain ⟨pkid, rfl⟩ := ack
        cases present : c.inflight pkid with
        | none =>
            rw [turn_pubAck_unknown present] at left
            cases left
            rfl
        | some x =>
            rw [turn_pubAck present] at left
            split_ifs at left
            cases left
            rfl
      · have same := turn_other (fun pkid same => ack ⟨pkid, same⟩)
          (fun pkid topics same => leave ⟨pkid, topics, same⟩) c w s left
        rw [same]
        rfl

/-- The pairs whose flag is left, once that of one is taken away. -/
theorem mem_set_false {α : Type} {l : List (α × Bool)} (once : (l.map Prod.fst).Nodup) {i : Nat}
    {a b : α} (here : l[i]? = some (a, true)) :
    (b, true) ∈ l.set i (a, false) ↔ (b, true) ∈ l ∧ b ≠ a := by
  have first {j : Nat} {c : α} (found : l[j]? = some (c, true)) : (l.map Prod.fst)[j]? = some c := by
    rw [List.getElem?_map, found]
    rfl
  constructor
  · intro member
    obtain ⟨j, found⟩ := List.mem_iff_getElem?.mp member
    rw [List.getElem?_set] at found
    split_ifs at found with same
    · cases found
    · refine ⟨List.mem_of_getElem? found, fun eq => same ?_⟩
      have inside : i < (l.map Prod.fst).length := (List.getElem?_eq_some_iff.mp (first here)).1
      exact (List.getElem?_inj inside once).mp ((first here).trans (eq ▸ first found).symm)
  · rintro ⟨member, different⟩
    obtain ⟨j, found⟩ := List.mem_iff_getElem?.mp member
    refine List.mem_of_getElem? (i := j) ?_
    rw [List.getElem?_set, if_neg, found]
    rintro rfl
    cases here.symm.trans found
    exact different rfl

/-- A poller that has panicked keeps its handle. -/
theorem polls_broken {i : Nat} {q : String} (unsubscribed : ∀ q, ¬ t.Subscribes q)
    (kept : ∀ q, ¬ t.Unsubscribes q)
    (idle : t.before.connection.subscriptions[i]? = some (.new q))
    (breaks : ∀ q', t.Breaks bc ids engine q' ↔ q' = q) :
    Polls bc ids engine t (t.before.connection.setPoller i ⟨q, none, false⟩) := by
  have handle : t.before.connection.pollers[i]? = some (q, true) := by
    rw [Connection.pollers, List.getElem?_map, idle]
    rfl
  have set := pollers_setPoller t.before.connection i ⟨q, none, false⟩
  have queues : (t.before.connection.setPoller i ⟨q, none, false⟩).queues =
      t.before.connection.queues := by
    have named : t.before.connection.queues[i]? = some q := by
      rw [queues_eq, List.getElem?_map, handle]
      rfl
    obtain ⟨inside, here⟩ := List.getElem?_eq_some_iff.mp named
    rw [queues_eq, set, List.map_set, ← queues_eq, ← here, List.set_getElem_self]
  refine ⟨fun q' => ?_, fun once => queues ▸ once, fun once q' => ?_⟩
  · rw [queues, or_iff_right (unsubscribed q'), and_iff_left (kept q')]
  · rw [set, or_iff_right fun spawns => unsubscribed q' spawns.1, breaks, and_iff_right (kept q')]
    exact mem_set_false (queues_eq _ ▸ once) handle

theorem polls_tick {s s' : Session} {i : Nat} {w : World}
    (left : (turn bc ids engine s (.tick i) w).1 = some s') :
    Polls bc ids engine (taken bc ids engine s (.tick i) w) s'.connection := by
  by_cases idle : ∃ q, s.connection.subscriptions[i]? = some (.new q)
  · obtain ⟨q, idle⟩ := idle
    have breaks (q') : (taken bc ids engine s (.tick i) w).Breaks bc ids engine q' ↔ q' = q ∧
        ((consumeOne bc engine q).run (Daemon.handle ids) w).1.returns = false := by
      constructor
      · rintro ⟨j, ticks, same, panicked⟩
        cases ticks
        cases idle.symm.trans same
        exact ⟨rfl, panicked⟩
      · rintro ⟨rfl, panicked⟩
        exact ⟨i, rfl, idle, panicked⟩
    rw [turn_tick idle] at left
    cases left
    cases outcome : ((consumeOne bc engine q).run (Daemon.handle ids) w).1 with
    | ok delivery =>
        refine .apart rfl (by simp [taken]) (fun q' broken => ?_) ?_
        · rw [breaks, outcome] at broken
          cases broken.2
        · cases delivery with
          | none => rfl
          | some => exact pollers_kept idle rfl rfl
    | err e => exact e.elim
    | panicked | diverged =>
        refine polls_broken (t := taken bc ids engine s (.tick i) w) (fun q' subscribes => ?_)
          (fun q' unsubscribes => ?_) idle fun q' => ?_
        · cases subscribes.1
        · obtain ⟨_, _, handles, -⟩ := unsubscribes
          cases handles
        · rw [breaks, outcome]
          exact and_iff_left rfl
  · rw [turn_tick_busy fun q same => idle ⟨q, same⟩] at left
    cases left
    refine .apart rfl (by simp [taken]) (fun q broken => ?_) rfl
    obtain ⟨j, ticks, same, -⟩ := broken
    cases ticks
    exact idle ⟨q, same⟩

theorem polls_deliver {s : Session} {w : World}
    (left : (turn bc ids engine ⟨.waiting, c⟩ .deliver w).1 = some s) :
    s.connection.pollers = c.pollers := by
  cases queued : c.channel with
  | nil =>
      rw [turn_deliver_none queued] at left
      cases left
      rfl
  | cons d rest =>
      rw [turn_deliver queued] at left
      split_ifs at left
      cases left
      rfl

/-- Every act of a connection. -/
theorem polls_turn {s s' : Session} {a : Act} {w : World}
    (left : (turn bc ids engine s a w).1 = some s') :
    Polls bc ids engine (taken bc ids engine s a w) s'.connection := by
  obtain ⟨phase, c⟩ := s
  have busy (working : phase ≠ .waiting)
      (loops : (∃ packet, a = .packet packet) ∨ a = .deliver ∨ a = .hangUp) :
      s'.connection.pollers = c.pollers := by
    rw [turn_busy working loops] at left
    cases left
    rfl
  have unbroken (loops : ∀ i, a ≠ .tick i) (q) :
      ¬ (taken bc ids engine ⟨phase, c⟩ a w).Breaks bc ids engine q :=
    fun breaks => loops breaks.choose breaks.choose_spec.1
  cases a with
  | packet packet =>
      cases phase with
      | waiting => exact polls_packet left
      | publishing | subscribing =>
          exact .apart rfl (by simp [taken]) (unbroken (by simp))
            (busy (by simp) (.inl ⟨packet, rfl⟩))
  | proceed =>
      rw [turn_proceed _ _ s' left]
      exact polls_proceed rfl
  | tick i => exact polls_tick left
  | handOver i =>
      cases left
      exact .apart rfl (by simp [taken]) (unbroken (by simp)) (pollers_handOver c i)
  | deliver =>
      cases phase with
      | waiting => exact .apart rfl (by simp [taken]) (unbroken (by simp)) (polls_deliver left)
      | publishing | subscribing =>
          exact .apart rfl (by simp [taken]) (unbroken (by simp)) (busy (by simp) (.inr (.inl rfl)))
  | hangUp =>
      cases phase with
      | waiting => cases left
      | publishing | subscribing =>
          exact .apart rfl (by simp [taken]) (unbroken (by simp)) (busy (by simp) (.inr (.inr rfl)))

end Acts

/-! ## Whole runs -/

/-- The client has subscribed to a queue and not unsubscribed since. -/
def Subscribed (past : List Turn) (q : String) : Prop :=
  Since (fun t => t.Subscribes q) (fun t => ¬ t.Unsubscribes q) past

/-- Since a poller of a queue was spawned it was not aborted, and no consume of it has panicked. -/
def Polling (bc : Bincode) (ids : Nat → UInt64) (engine : AppEngine) (past : List Turn)
    (q : String) : Prop :=
  Since (fun t => t.Spawns q) (fun t => ¬ t.Unsubscribes q ∧ ¬ t.Breaks bc ids engine q) past

/-- There is one handle for each queue that is subscribed to, and some of the pollers run. -/
structure Polled (bc : Bincode) (ids : Nat → UInt64) (engine : AppEngine) (past : List Turn)
    (s : Session) : Prop where
  mem : ∀ q, q ∈ s.connection.queues ↔ Subscribed past q
  nodup : s.connection.queues.Nodup
  runs : ∀ q, (q, true) ∈ s.connection.pollers ↔ Polling bc ids engine past q

section Runs

variable {bc : Bincode} {ids : Nat → UInt64} {engine : AppEngine}

theorem polled_new : Polled bc ids engine [] .new where
  mem q := by
    constructor
    · rintro ⟨⟩
    · exact fun subscribed => absurd subscribed since_nil
  nodup := List.nodup_nil
  runs q := by
    constructor
    · rintro ⟨⟩
    · exact fun polling => absurd polling since_nil

theorem Polled.next {past : List Turn} {t : Turn} {s : Session}
    (polled : Polled bc ids engine past t.before) (polls : Polls bc ids engine t s.connection) :
    Polled bc ids engine (past ++ [t]) s where
  mem q := by rw [polls.mem, polled.mem, Subscribed, Subscribed, since_snoc]
  nodup := polls.nodup polled.nodup
  runs q := by rw [polls.runs polled.nodup, polled.runs, Polling, Polling, since_snoc]

theorem polled_kept : KeptByTurns bc ids engine (Polled bc ids engine) where
  initially := polled_new
  gives _ _ _ polled := ⟨polled.mem, polled.nodup, polled.runs⟩
  next past t s polled made left := by
    refine polled.next ?_
    rw [made] at left ⊢
    exact polls_turn left

variable (bc ids engine)

end Runs

end PelicanQ.Mqtt
