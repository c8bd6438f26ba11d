import PelicanQ.Guarantees.PacketIds

/-! # Replies

A client of the MQTT interface has at most one packet handled at a time.  What the
connection writes is a delivery or the reply to that packet, and a packet that demands
a reply has it before the next one is handled.  A subscription is answered with one
code for each filter, a failure for those with wildcards.
-/

namespace PelicanQ.Mqtt

open Daemon (World Task)

/-- Does a packet demand a reply? -/
def demands : Packet → Bool
  | .publish _ qos _ _ _ _ => 1 ≤ qos.level
  | .subscribe .. | .unsubscribe .. | .pingReq => true
  | _ => false

/-- The code for a filter is a failure exactly when it has wildcards. -/
def Granted (filter : String × QoS) (code : SubscribeReasonCode) : Prop :=
  code = .failure ↔ hasWildcard filter.1 = true

/-- What answers a packet. -/
inductive Reply : Packet → Packet → Prop
  | pubAck (dup : Bool) {qos : QoS} (asked : 1 ≤ qos.level) (retain : Bool) (topic : String)
      (pkid : UInt16) (payload : Bytes) :
      Reply (.publish dup qos retain topic pkid payload) (.pubAck pkid)
  | subAck (pkid : UInt16) {filters : List (String × QoS)} {codes : List SubscribeReasonCode}
      (granted : List.Forall₂ Granted filters codes) :
      Reply (.subscribe pkid filters) (.subAck pkid codes)
  | unsubAck (pkid : UInt16) (topics : List String) :
      Reply (.unsubscribe pkid topics) (.unsubAck pkid)
  | pingResp : Reply .pingReq .pingResp

/-- The phase is one of the handling of a packet. -/
def Phase.For (phase : Phase) (c : Packet) : Prop :=
  match phase with
  | .waiting => False
  | .publishing qos queue pkid payload => ∃ dup retain, c = .publish dup qos retain queue pkid payload
  | .subscribing pkid rest codes =>
      ∃ done, c = .subscribe pkid (done ++ rest) ∧ List.Forall₂ Granted done codes

/-- The handling of a packet goes on, or it is over and a reply that it demands is written. -/
def Answered (c : Packet) (written : List Packet) (phase : Phase) : Prop :=
  (written = [] ∧ phase.For c) ∨
    (phase = .waiting ∧ ((∃ p, written = [p] ∧ Reply c p) ∨ (written = [] ∧ demands c = false)))

/-! ## What a task writes -/

section Tasks

variable {bc : Bincode} {ids : Nat → UInt64} {engine : AppEngine} {ε α β : Type}

variable (ids) in
/-- A task that writes nothing. -/
def Silent (task : Task ε α) : Prop := task.Leads (Daemon.handle ids) fun w w' => w'.sent = w.sent

theorem Silent.ret (a : α) : Silent ids (.ret a : Task ε α) := fun _ => rfl

theorem Silent.bind {p : Task ε α} {f : α → Task ε β} (first : Silent ids p)
    (rest : ∀ a, Silent ids (f a)) : Silent ids (p >>= f) :=
  Program.Leads.bind first rest fun _ _ _ one two => two.trans one

theorem Silent.core (action : Action α) : Silent ids (Daemon.core action : Task ε _) :=
  Daemon.leads_core (fun _ _ _ one two => two.trans one) (fun _ _ => rfl) fun _ => rfl

theorem silent_clientWrite (op : QueueOperation) :
    Silent ids (Daemon.clientWrite bc op : Task ε _) := by
  refine .bind (fun _ => rfl) fun decision => ?_
  cases decision with
  | forwards | fails => exact .ret _
  | applies =>
      refine .bind (fun _ => rfl) fun memory => .bind (.core _) fun result => ?_
      cases result <;> exact .ret _

theorem silent_sequential : Daemon.Sequential fun _ => Silent ids := ⟨.ret, .bind⟩

theorem silent_declareQueue (queue : String) : Silent ids (declareQueue bc engine queue) :=
  silent_sequential.declareQueue engine (.core _) (silent_clientWrite _)

theorem silent_consumeOne (queue : String) : Silent ids (consumeOne bc engine queue) :=
  silent_sequential.consumeOne engine (.core _) (silent_clientWrite _)

theorem silent_ackMessage (queue : String) (tag : DeliveryTag) :
    Silent ids (ackMessage bc engine queue tag) :=
  silent_sequential.ackMessage engine (.core _) (silent_clientWrite _)

theorem silent_publishMessage (queue : String) (payload : Bytes) :
    Silent ids (publishMessage bc engine queue payload) :=
  silent_sequential.publishMessage engine payload (fun _ => rfl) (fun _ => rfl)
    (fun _ _ => .core _) fun _ _ => silent_clientWrite _

variable (ids) in
/-- What a task writes fits what it returns, and a task that does not return has written nothing. -/
def Writes (V : List Packet → α → Prop) (task : Task Empty α) : Prop :=
  ∀ w, ∃ written, (task.run (Daemon.handle ids) w).2.sent = w.sent ++ written ∧
    (∀ a, (task.run (Daemon.handle ids) w).1 = .ok a → V written a) ∧
    ((∀ a, (task.run (Daemon.handle ids) w).1 ≠ .ok a) → written = [])

variable {V : List Packet → α → Prop}

theorem Writes.ret {a : α} (fits : V [] a) : Writes ids V (.ret a) := by
  refine fun w => ⟨[], (List.append_nil _).symm, fun a' same => ?_, fun _ => rfl⟩
  cases same
  exact fits

theorem Writes.mono {V' : List Packet → α → Prop} {task : Task Empty α} (writes : Writes ids V task)
    (weaken : ∀ written a, V written a → V' written a) : Writes ids V' task := by
  intro w
  obtain ⟨written, sent, ok, other⟩ := writes w
  exact ⟨written, sent, fun a same => weaken _ _ (ok a same), other⟩

/-- A silent task and then one for each of its results. -/
theorem Writes.after {Q : β → Prop} {p : Task Empty β} {f : β → Task Empty α}
    (silent : Silent ids p) (ends : p.Ends Q fun _ => True) (rest : ∀ b, Q b → Writes ids V (f b)) :
    Writes ids V (p >>= f) := by
  intro w
  have quiet := silent w
  rw [Program.run_bind]
  cases ran : p.run (Daemon.handle ids) w with
  | mk outcome w' =>
      rw [ran] at quiet
      cases outcome with
      | ok b =>
          have last := rest b (ends.ok (congrArg Prod.fst ran)) w'
          rw [show w'.sent = w.sent from quiet] at last
          exact last
      | err e => exact e.elim
      | panicked | diverged =>
          refine ⟨[], quiet.trans (List.append_nil _).symm, fun _ same => ?_, fun _ => rfl⟩
          cases same

theorem Writes.then {p : Task Empty β} {f : β → Task Empty α} (silent : Silent ids p)
    (rest : ∀ b, Writes ids V (f b)) : Writes ids V (p >>= f) :=
  .after silent (Program.Ends.any (fun _ => True.intro) (fun _ => True.intro) p) fun b _ => rest b

theorem Writes.send {packet : Packet} {first second : α} (written : V [packet] first)
    (refused : V [] second) :
    Writes ids V (Daemon.send packet >>= fun written =>
      if written then (pure first : Task Empty α) else pure second) := by
  intro w
  rw [Daemon.run_send]
  cases socket : w.socket 0 with
  | true =>
      refine ⟨[packet], ?_, fun a same => ?_, fun never => absurd rfl (never first)⟩
      · change (if w.socket 0 = true then _ else _) = _
        rw [if_pos socket]
      · cases same
        exact written
  | false =>
      refine ⟨[], ?_, fun a same => ?_, fun _ => rfl⟩
      · change (if w.socket 0 = true then _ else _) = _
        rw [socket]
        exact (List.append_nil _).symm
      · cases same
        exact refused

end Tasks

/-! ## One act -/

/-- What a turn writes. -/
def Turn.written (t : Turn) : List Packet := t.left.sent.drop t.world.sent.length

/-- The packet whose handling begins. -/
def Turn.handles (t : Turn) : Option Packet :=
  match t.act, t.before.phase with
  | .packet c, .waiting => some c
  | _, _ => none

/-- A closed connection has written nothing more, and an open one fits. -/
def Open (fits : List Packet → Phase → Prop) (written : List Packet) (after : Option Session) : Prop :=
  (after = none → written = []) ∧ ∀ s, after = some s → fits written s.phase

section Acts

variable {bc : Bincode} {ids : Nat → UInt64} {engine : AppEngine}
  {fits : List Packet → Phase → Prop}

theorem open_none : Open fits [] none := ⟨fun _ => rfl, fun _ same => absurd same (by simp)⟩

theorem open_some {written : List Packet} {s : Session} (holds : fits written s.phase) :
    Open fits written (some s) := by
  refine ⟨fun closed => absurd closed (by simp), fun s' same => ?_⟩
  cases same
  exact holds

theorem answered_reply {c p : Packet} (reply : Reply c p) : Answered c [p] .waiting :=
  .inr ⟨rfl, .inl ⟨p, rfl, reply⟩⟩

theorem answered_undemanded {c : Packet} (no : demands c = false) : Answered c [] .waiting :=
  .inr ⟨rfl, .inr ⟨rfl, no⟩⟩

theorem writes_receive (c : Connection) (packet : Packet) :
    Writes ids (Open (Answered packet)) (receive bc engine packet c) := by
  cases packet with
  | publish dup qos retain topic pkid payload =>
      refine .then (silent_declareQueue topic) fun _ => .ret (open_some (.inl ⟨rfl, ?_⟩))
      exact ⟨dup, retain, rfl⟩
  | subscribe pkid filters => exact .ret (open_some (.inl ⟨rfl, [], rfl, .nil⟩))
  | unsubscribe pkid topics =>
      rw [receive_unsubscribe]
      exact .send (open_some (answered_reply (.unsubAck pkid topics))) open_none
  | pubAck pkid =>
      cases present : c.inflight pkid with
      | none =>
          rw [receive_pubAck_unknown present]
          exact .ret (open_some (answered_undemanded rfl))
      | some x =>
          rw [receive_pubAck present]
          exact .then (silent_ackMessage _ _) fun _ => .ret (open_some (answered_undemanded rfl))
  | pingReq =>
      have once : receive bc engine .pingReq c = (Daemon.send .pingResp >>= fun written =>
          if written then pure (some ⟨.waiting, c⟩) else pure none) :=
        congrArg (Program.call _) (funext fun written => by cases written <;> rfl)
      rw [once]
      exact .send (open_some (answered_reply .pingResp)) open_none
  | disconnect => exact .ret open_none
  | connect | connAck | pubRec | pubRel | pubComp | subAck | unsubAck | pingResp =>
      exact .ret (open_some (answered_undemanded rfl))

theorem granted_subscribe (path : String) (qos : QoS) (c : Connection) :
    (subscribe bc engine path qos c).Ends (fun r => Granted (path, qos) r.2) fun _ => True := by
  unfold subscribe
  split_ifs with wildcard
  · exact iff_of_true rfl wildcard
  all_goals
    refine .last (fun _ => trivial) fun _ => ?_
    exact iff_of_false (by simp) wildcard

theorem silent_subscribe (path : String) (qos : QoS) (c : Connection) :
    Silent ids (subscribe bc engine path qos c) := by
  unfold subscribe
  split_ifs
  · exact .ret _
  all_goals exact .bind (silent_declareQueue path) fun _ => .ret _

/-- What a turn does to the handling of packets. -/
structure Exchange (t : Turn) (written : List Packet) (phase : Phase) : Prop where
  begins : ∀ c, t.handles = some c → Answered c written phase
  goesOn : ∀ c, t.before.phase.For c → Answered c written phase
  quiet : t.handles = none → t.before.phase = .waiting →
    phase = .waiting ∧ (written = [] ∨ ∃ d, t.delivery = some d ∧ written = [deliveryPacket d t.pkid])

/-- A turn that handles nothing, writes nothing and keeps the phase. -/
theorem Exchange.same {t : Turn} (unhandled : t.handles = none) : Exchange t [] t.before.phase where
  begins c begins := by
    rw [unhandled] at begins
    cases begins
  goesOn c going := .inl ⟨rfl, going⟩
  quiet _ waiting := ⟨waiting, .inl rfl⟩

theorem writes_proceed {t : Turn} (unhandled : t.handles = none) :
    Writes ids (Open (Exchange t)) (proceed bc engine t.before) := by
  have ended {written : List Packet} (busy : t.before.phase ≠ .waiting) {phase : Phase}
      (answers : ∀ c, t.before.phase.For c → Answered c written phase) : Exchange t written phase := by
    refine ⟨fun c begins => ?_, answers, fun _ waiting => absurd waiting busy⟩
    rw [unhandled] at begins
    cases begins
  obtain ⟨a, w, ⟨phase, c⟩, after, left⟩ := t
  cases phase with
  | waiting => exact .ret (open_some (.same unhandled))
  | publishing qos queue pkid payload =>
      refine .then (silent_publishMessage queue payload) fun _ => ?_
      split_ifs with asked
      · refine .send (open_some (ended (by simp) ?_)) open_none
        rintro _ ⟨dup, retain, rfl⟩
        exact answered_reply (.pubAck dup asked retain queue pkid payload)
      · refine .ret (open_some (ended (by simp) ?_))
        rintro _ ⟨dup, retain, rfl⟩
        exact answered_undemanded (decide_eq_false asked)
  | subscribing pkid filters codes =>
      cases filters with
      | nil =>
          refine .send (open_some (ended (by simp) ?_)) open_none
          rintro _ ⟨done, rfl, granted⟩
          rw [List.append_nil]
          exact answered_reply (.subAck pkid granted)
      | cons filter rest =>
          refine .after (silent_subscribe filter.1 filter.2 c)
            (granted_subscribe filter.1 filter.2 c) fun r new => ?_
          refine .ret (open_some (ended (by simp) ?_))
          rintro _ ⟨done, rfl, granted⟩
          refine .inl ⟨rfl, done ++ [filter], by simp, ?_⟩
          exact List.rel_append granted (.cons new .nil)

theorem writes_deliver {t : Turn} (sending : t.act = .deliver) (waiting : t.before.phase = .waiting) :
    Writes ids (Open (Exchange t)) (deliver t.before.connection) := by
  have unhandled : t.handles = none := by simp only [Turn.handles, sending]
  have kept : Exchange t [] .waiting := waiting ▸ .same unhandled
  unfold deliver
  split
  · rename_i d rest queued
    refine .send (open_some ⟨fun c begins => ?_, fun c going => ?_, fun _ _ => ⟨rfl, .inr ⟨d, ?_, rfl⟩⟩⟩)
      open_none
    · rw [unhandled] at begins
      cases begins
    · rw [waiting] at going
      exact going.elim
    · simp only [Turn.delivery, sending, waiting, queued]
  · exact .ret (open_some kept)

theorem writes_tick {t : Turn} (unhandled : t.handles = none) (i : Nat) :
    Writes ids (Open (Exchange t)) (tick bc engine i t.before) := by
  have kept : Exchange t [] t.before.phase := .same unhandled
  unfold tick
  split
  · refine .then (silent_consumeOne _) fun delivery => ?_
    cases delivery with
    | none => exact .ret (open_some kept)
    | some delivery => exact .ret (open_some kept)
  · exact .ret (open_some kept)

/-- A packet is handled. -/
theorem writes_packet {t : Turn} {packet : Packet} (begins : t.handles = some packet)
    (waiting : t.before.phase = .waiting) :
    Writes ids (Open (Exchange t)) (receive bc engine packet t.before.connection) := by
  refine (writes_receive _ packet).mono fun written after opened => ⟨opened.1, fun s same => ?_⟩
  have answered := opened.2 s same
  refine ⟨fun c also => ?_, fun c going => ?_, fun none => ?_⟩
  · rw [begins] at also
    cases also
    exact answered
  · rw [waiting] at going
    exact going.elim
  · rw [begins] at none
    cases none

/-- Every act of a connection. -/
theorem writes_act (t : Turn) : Writes ids (Open (Exchange t)) (act bc engine t.before t.act) := by
  have busy (unhandled : t.handles = none) : Open (Exchange t) [] (some t.before) :=
    open_some (.same unhandled)
  obtain ⟨a, w, ⟨phase, c⟩, after, left⟩ := t
  cases a with
  | packet packet =>
      cases phase with
      | waiting => exact writes_packet rfl rfl
      | publishing | subscribing => exact .ret (busy rfl)
  | proceed => exact writes_proceed rfl
  | tick i => exact writes_tick rfl i
  | handOver i => exact .ret (open_some (Exchange.same rfl))
  | deliver =>
      cases phase with
      | waiting => exact writes_deliver rfl rfl
      | publishing | subscribing => exact .ret (busy rfl)
  | hangUp =>
      cases phase with
      | waiting => exact .ret open_none
      | publishing | subscribing => exact .ret (busy rfl)

/-- What a turn writes, and what it leaves to be answered. -/
theorem exchange_turn {t : Turn} (made : t = taken bc ids engine t.before t.act t.world) :
    (t.after = none → t.written = []) ∧
      ∀ s, t.after = some s → Exchange t t.written s.phase := by
  have writes : Writes ids (Open (Exchange t)) (act bc engine t.before t.act) := writes_act t
  obtain ⟨written, sent, ok, other⟩ := writes t.world
  obtain ⟨after, left⟩ := Turn.ends bc ids engine made
  have wrote : t.written = written := by
    rw [Turn.written, left]
    change (((act bc engine t.before t.act).run (Daemon.handle ids) t.world).2).sent.drop _ = _
    rw [sent, List.drop_left]
  rw [wrote, after]
  change (Daemon.sessionAfter t.before t.act ((act bc engine t.before t.act).run
    (Daemon.handle ids) t.world).1 = none → _) ∧ ∀ s, Daemon.sessionAfter t.before t.act
      ((act bc engine t.before t.act).run (Daemon.handle ids) t.world).1 = some s → _
  cases ran : ((act bc engine t.before t.act).run (Daemon.handle ids) t.world).1 with
  | ok after => exact ok after ran
  | err e => exact e.elim
  | panicked | diverged =>
      have nothing : written = [] := other fun a same => by rw [ran] at same; cases same
      refine ⟨fun _ => nothing, fun s same => ?_⟩
      rw [nothing]
      -- only a poller's panic leaves the connection open
      cases action : t.act with
      | tick i =>
          rw [action] at same
          cases same
          exact .same (by simp only [Turn.handles, action])
      | packet | proceed | handOver | deliver | hangUp =>
          rw [action] at same
          cases same

end Acts

/-! ## Whole runs -/

/-- The last packet that was handled, with nothing written since. -/
def Unanswered (past : List Turn) (c : Packet) : Prop :=
  Since (fun t => t.handles = some c ∧ t.written = [])
    (fun t => t.handles = none ∧ t.written = []) past

/-- What a run has answered. -/
structure Replied (past : List Turn) (s : Session) : Prop where
  current : s.phase ≠ .waiting → ∃ c, s.phase.For c ∧ Unanswered past c
  answered : ∀ earlier u since c, past = earlier ++ u :: since → u.handles = some c →
    demands c = true → (∃ v ∈ u :: since, ∃ p, v.written = [p] ∧ Reply c p) ∨ s.phase.For c

/-- One turn keeps the account of the replies. -/
theorem Replied.next {past : List Turn} {t : Turn} {s : Session} (replied : Replied past t.before)
    (exchange : Exchange t t.written s.phase) : Replied (past ++ [t]) s where
  current := by
    intro busy
    have still {c : Packet} (answered : Answered c t.written s.phase) :
        t.written = [] ∧ s.phase.For c := by
      rcases answered with going | ⟨waiting, -⟩
      · exact going
      · exact absurd waiting busy
    cases handles : t.handles with
    | some c =>
        obtain ⟨silent, going⟩ := still (exchange.begins c handles)
        exact ⟨c, going, since_snoc.mpr (.inl ⟨handles, silent⟩)⟩
    | none =>
        by_cases waiting : t.before.phase = .waiting
        · exact absurd (exchange.quiet handles waiting).1 busy
        · obtain ⟨c, going, unanswered⟩ := replied.current waiting
          obtain ⟨silent, going⟩ := still (exchange.goesOn c going)
          exact ⟨c, going, since_snoc.mpr (.inr ⟨unanswered, handles, silent⟩)⟩
  answered := by
    intro earlier u since c split handles demanded
    have finished (answered : Answered c t.written s.phase) :
        (∃ p, t.written = [p] ∧ Reply c p) ∨ s.phase.For c := by
      rcases answered with ⟨-, going⟩ | ⟨-, reply | ⟨-, undemanded⟩⟩
      · exact .inr going
      · exact .inl reply
      · rw [demanded] at undemanded
        cases undemanded
    rcases List.eq_nil_or_concat since with rfl | ⟨since', last, rfl⟩
    · obtain ⟨-, same⟩ := List.append_inj' split rfl
      cases same
      rcases finished (exchange.begins c handles) with reply | going
      · exact .inl ⟨t, List.mem_cons_self, reply⟩
      · exact .inr going
    · rw [List.concat_eq_append] at split ⊢
      rw [← List.cons_append, ← List.append_assoc] at split
      obtain ⟨front, same⟩ := List.append_inj' split rfl
      cases same
      rcases replied.answered earlier u since' c front handles demanded with ⟨v, member, reply⟩ | going
      · exact .inl ⟨v, List.mem_append_left [t] member, reply⟩
      · rcases finished (exchange.goesOn c going) with reply | going
        · exact .inl ⟨t, List.mem_append_right (u :: since') (List.mem_singleton_self t), reply⟩
        · exact .inr going

theorem replied_new : Replied [] .new where
  current busy := absurd rfl busy
  answered earlier u since c split := by simp at split

section Runs

variable {bc : Bincode} {ids : Nat → UInt64} {engine : AppEngine}

theorem replied_kept : KeptByTurns bc ids engine Replied where
  initially := replied_new
  gives _ _ _ replied := ⟨replied.current, replied.answered⟩
  next _ _ s replied made left := replied.next ((exchange_turn made).2 s left)

variable (bc ids engine)

/-- All that a connection writes is deliveries and replies, and a reply is to the packet that is
    being handled, or was handled last and not yet answered.  When the next packet can be handled
    every packet that demands a reply has one. -/
theorem replies_answer (run : List Next) (past : List Turn) (t : Turn)
    (later : List Turn) (split : turns bc ids engine (some .new) run = past ++ t :: later) :
    (∀ p ∈ t.written, (∃ d, t.delivery = some d ∧ p = deliveryPacket d t.pkid) ∨
      ∃ c, Reply c p ∧ (t.handles = some c ∨ Unanswered past c)) ∧
    (t.before.phase = .waiting → ∀ earlier u since c, past = earlier ++ u :: since →
      u.handles = some c → demands c = true → ∃ v ∈ u :: since, ∃ p, v.written = [p] ∧ Reply c p) := by
  obtain ⟨replied, made, -⟩ := replied_kept.before_turn split
  constructor
  · intro p member
    obtain ⟨closed, opened⟩ := exchange_turn made
    cases left : t.after with
    | none =>
        rw [closed left] at member
        exact absurd member List.not_mem_nil
    | some s =>
        have exchange := opened s left
        have reply {c : Packet} (answered : Answered c t.written s.phase) : Reply c p := by
          rcases answered with ⟨silent, -⟩ | ⟨-, ⟨p', one, reply⟩ | ⟨silent, -⟩⟩
          · rw [silent] at member
            exact absurd member List.not_mem_nil
          · rw [one, List.mem_singleton] at member
            exact member ▸ reply
          · rw [silent] at member
            exact absurd member List.not_mem_nil
        cases handles : t.handles with
        | some c => exact .inr ⟨c, reply (exchange.begins c handles), .inl rfl⟩
        | none =>
            by_cases waiting : t.before.phase = .waiting
            · rcases (exchange.quiet handles waiting).2 with silent | ⟨d, sends, one⟩
              · rw [silent] at member
                exact absurd member List.not_mem_nil
              · rw [one, List.mem_singleton] at member
                exact .inl ⟨d, sends, member⟩
            · obtain ⟨c, going, unanswered⟩ := replied.current waiting
              exact .inr ⟨c, reply (exchange.goesOn c going), .inr unanswered⟩
  · intro waiting earlier u since c front handles demanded
    rcases replied.answered earlier u since c front handles demanded with reply | going
    · exact reply
    · rw [waiting] at going
      exact going.elim

theorem oneAcked_replied :
    ∃ v ∈ acked 0 :: (oneAcked.drop 1).take 5, ∃ p, v.written = [p] ∧
      Reply (.subscribe 1 [("q", .atLeastOnce)]) p := by
  have front : oneAcked.take 6 = [] ++ acked 0 :: (oneAcked.drop 1).take 5 :=
    congrArg (List.take 6) (oneAcked_split 0)
  have waiting : (acked 6).before.phase = .waiting := by decide +kernel
  have handles : (acked 0).handles = some (.subscribe 1 [("q", .atLeastOnce)]) := by decide +kernel
  exact (replies_answer bincode (counter 0) .solo oneDelivery _ _ _ (oneAcked_split 6)).2 waiting
    [] (acked 0) _ _ front handles rfl

end Runs

end PelicanQ.Mqtt
