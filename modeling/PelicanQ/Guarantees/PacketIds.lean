import PelicanQ.Guarantees.Acceptance
import PelicanQ.Guarantees.Acts
import PelicanQ.Lib.Since

/-! # Packet ids

A connection numbers what it sends: its `k`-th delivery goes out under `k` modulo
`2 ^ 16`, and the id is kept with the delivery until the client acknowledges it.  An
acknowledgement is for the last delivery sent under its id.  While fewer than `2 ^ 16`
deliveries were sent that is the only one, and where a packet without an id is refused,
as the protocol demands, there are never more.
-/

namespace PelicanQ.Mqtt

open Daemon (World)

/-- An act that was taken, with the daemon before and after it. -/
structure Turn where
  act : Act
  world : World
  before : Session
  after : Option Session
  left : World

/-- What happens next to a connection.  In between others work on the manager, so each act has a
    daemon of its own, and strays of the connection may have put deliveries into its channel. -/
structure Next where
  given : List Incoming
  act : Act
  world : World

def Session.given (s : Session) (more : List Incoming) : Session :=
  { s with connection := { s.connection with channel := s.connection.channel ++ more } }

section Turns

variable (bc : Bincode) (ids : Nat → UInt64) (engine : AppEngine)

def taken (s : Session) (a : Act) (w : World) : Turn :=
  ⟨a, w, s, (turn bc ids engine s a w).1, (turn bc ids engine s a w).2⟩

/-- The turns of a connection until it is closed. -/
def turns : Option Session → List Next → List Turn
  | some s, next :: rest =>
      taken bc ids engine (s.given next.given) next.act next.world ::
        turns (taken bc ids engine (s.given next.given) next.act next.world).after rest
  | _, _ => []

end Turns

namespace Turn

/-- The delivery a turn sends. -/
def delivery (t : Turn) : Option Incoming :=
  match t.act, t.before.phase, t.before.connection.channel with
  | .deliver, .waiting, d :: _ => some d
  | _, _, _ => none

/-- The packet id the client acknowledges. -/
def acks (t : Turn) : Option UInt16 :=
  match t.act, t.before.phase with
  | .packet (.pubAck pkid), .waiting => some pkid
  | _, _ => none

/-- The id of the next delivery. -/
def pkid (t : Turn) : UInt16 := t.before.connection.nextPkid

/-- A turn that sends something under an id, or in which the id is acknowledged. -/
def Uses (t : Turn) (p : UInt16) : Prop := (∃ d, t.delivery = some d ∧ t.pkid = p) ∨ t.acks = some p

end Turn

/-- What a connection sent, in order. -/
def deliveries (past : List Turn) : List Incoming := past.filterMap Turn.delivery

/-- The ids of what a connection sent. -/
def sentIds (past : List Turn) : List UInt16 :=
  past.filterMap fun t => t.delivery.map fun _ => t.pkid

/-- What was sent under an id and has not been acknowledged since. -/
def Unacked (past : List Turn) (p : UInt16) (q : String) (tag : DeliveryTag) : Prop :=
  Since (fun t => ∃ d, t.delivery = some d ∧ t.pkid = p ∧ d.queue = q ∧ d.tag = tag)
    (fun t => t.acks ≠ some p) past

/-- The last thing sent under an id, as long as the client has not acknowledged it. -/
def LastUnder (past : List Turn) (p : UInt16) (q : String) (tag : DeliveryTag) : Prop :=
  Since (fun t => ∃ d, t.delivery = some d ∧ t.pkid = p ∧ d.queue = q ∧ d.tag = tag)
    (fun t => ¬ t.Uses p) past

/-! ## What an act does to the ids -/

theorem handOver_ids (c : Connection) (i : Nat) :
    (c.handOver i).inflight = c.inflight ∧ (c.handOver i).nextPkid = c.nextPkid := by
  unfold Connection.handOver
  split
  · split_ifs <;> exact ⟨rfl, rfl⟩
  · exact ⟨rfl, rfl⟩

theorem proceeded_ids (s : Session) :
    (proceeded s).inflight = s.connection.inflight ∧
      (proceeded s).nextPkid = s.connection.nextPkid := by
  unfold proceeded Connection.subscribed
  split
  · split_ifs <;> exact ⟨rfl, rfl⟩
  · exact ⟨rfl, rfl⟩

section Acts

variable {bc : Bincode} {ids : Nat → UInt64} {engine : AppEngine}

/-- The packet ids after an act. -/
structure Numbers (t : Turn) (s : Session) : Prop where
  sent : ∀ d, t.delivery = some d → s.connection.nextPkid = t.pkid + 1 ∧
    s.connection.inflight =
      Function.update t.before.connection.inflight t.pkid (some (d.queue, d.tag))
  acked : ∀ p, t.acks = some p → s.connection.nextPkid = t.pkid ∧
    s.connection.inflight = Function.update t.before.connection.inflight p none
  kept : t.delivery = none → t.acks = none → s.connection.nextPkid = t.pkid ∧
    s.connection.inflight = t.before.connection.inflight

/-- An act that neither sends nor acknowledges keeps the ids. -/
theorem Numbers.of_same {t : Turn} {s : Session} (undelivered : t.delivery = none)
    (unacked : t.acks = none) (next : s.connection.nextPkid = t.pkid)
    (same : s.connection.inflight = t.before.connection.inflight) : Numbers t s where
  sent d sends := by
    rw [undelivered] at sends
    cases sends
  acked p acks := by
    rw [unacked] at acks
    cases acks
  kept _ _ := ⟨next, same⟩

/-- A turn that changes nothing. -/
theorem numbers_busy {s s' : Session} {a : Act} {w : World}
    (same : turn bc ids engine s a w = (some s, w))
    (undelivered : (taken bc ids engine s a w).delivery = none)
    (unacked : (taken bc ids engine s a w).acks = none)
    (left : (taken bc ids engine s a w).after = some s') :
    Numbers (taken bc ids engine s a w) s' := by
  change (turn bc ids engine s a w).1 = some s' at left
  rw [same] at left
  cases left
  exact .of_same undelivered unacked rfl rfl

theorem numbers_packet {c : Connection} {packet : Packet} {w : World} {s' : Session}
    (left : (taken bc ids engine ⟨.waiting, c⟩ (.packet packet) w).after = some s') :
    Numbers (taken bc ids engine ⟨.waiting, c⟩ (.packet packet) w) s' := by
  change (turn bc ids engine ⟨.waiting, c⟩ (.packet packet) w).1 = some s' at left
  by_cases ack : ∃ pkid, packet = .pubAck pkid
  · obtain ⟨pkid, rfl⟩ := ack
    refine ⟨by rintro _ ⟨⟩, fun p acks => ?_, by rintro _ ⟨⟩⟩
    cases acks
    cases present : c.inflight pkid with
    | none =>
        rw [turn_pubAck_unknown present] at left
        cases left
        refine ⟨rfl, (Function.update_eq_self_iff.mpr ?_).symm⟩
        exact present.symm
    | some delivery =>
        obtain ⟨q, tag⟩ := delivery
        rw [turn_pubAck present] at left
        split_ifs at left
        cases left
        exact ⟨rfl, rfl⟩
  · have acks (pkid) : packet ≠ .pubAck pkid := fun same => ack ⟨pkid, same⟩
    have unacked : (taken bc ids engine ⟨.waiting, c⟩ (.packet packet) w).acks = none := by
      cases packet with
      | pubAck pkid => exact absurd rfl (acks pkid)
      | _ => rfl
    by_cases leave : ∃ pkid topics, packet = .unsubscribe pkid topics
    · obtain ⟨pkid, topics, rfl⟩ := leave
      rw [turn_unsubscribe] at left
      split_ifs at left
      cases left
      exact .of_same rfl rfl rfl rfl
    · have leaves (pkid topics) : packet ≠ .unsubscribe pkid topics :=
        fun same => leave ⟨pkid, topics, same⟩
      have same := turn_other acks leaves c w s' left
      exact .of_same rfl unacked (by rw [same]; rfl) (by rw [same]; rfl)

theorem numbers_deliver {c : Connection} {w : World} {s' : Session}
    (left : (taken bc ids engine ⟨.waiting, c⟩ .deliver w).after = some s') :
    Numbers (taken bc ids engine ⟨.waiting, c⟩ .deliver w) s' := by
  change (turn bc ids engine ⟨.waiting, c⟩ .deliver w).1 = some s' at left
  cases queued : c.channel with
  | nil =>
      rw [turn_deliver_none queued] at left
      cases left
      refine .of_same ?_ rfl rfl rfl
      simp only [Turn.delivery, taken, queued]
  | cons d rest =>
      have sends : (taken bc ids engine ⟨.waiting, c⟩ .deliver w).delivery = some d := by
        simp only [Turn.delivery, taken, queued]
      rw [turn_deliver queued] at left
      split_ifs at left
      cases left
      refine ⟨fun d' sends' => ?_, by rintro _ ⟨⟩, fun none => ?_⟩
      · rw [sends] at sends'
        cases sends'
        exact ⟨rfl, rfl⟩
      · rw [sends] at none
        cases none

theorem numbers_turn {s s' : Session} {a : Act} {w : World}
    (left : (taken bc ids engine s a w).after = some s') : Numbers (taken bc ids engine s a w) s' := by
  obtain ⟨phase, c⟩ := s
  cases a with
  | packet packet =>
      cases phase with
      | waiting => exact numbers_packet left
      | publishing | subscribing =>
          refine numbers_busy (turn_busy (by simp) (.inl ⟨packet, rfl⟩)) rfl ?_ left
          cases packet <;> rfl
  | proceed =>
      have same := turn_proceed _ w s' left
      obtain ⟨inflight, next⟩ := proceeded_ids ⟨phase, c⟩
      exact .of_same rfl rfl (same ▸ next) (same ▸ inflight)
  | tick i =>
      by_cases idle : ∃ q, c.subscriptions[i]? = some (.new q)
      · obtain ⟨q, idle⟩ := idle
        change (turn bc ids engine ⟨phase, c⟩ (.tick i) w).1 = some s' at left
        rw [turn_tick idle] at left
        cases left
        unfold polled
        split <;> exact .of_same rfl rfl rfl rfl
      · exact numbers_busy (turn_tick_busy fun q same => idle ⟨q, same⟩) rfl rfl left
  | handOver i =>
      cases left
      obtain ⟨inflight, next⟩ := handOver_ids c i
      exact .of_same rfl rfl next inflight
  | deliver =>
      cases phase with
      | waiting => exact numbers_deliver left
      | publishing | subscribing =>
          exact numbers_busy (turn_busy (by simp) (.inr (.inl rfl))) rfl rfl left
  | hangUp =>
      cases phase with
      | waiting => cases left
      | publishing | subscribing =>
          exact numbers_busy (turn_busy (by simp) (.inr (.inr rfl))) rfl rfl left

end Acts

/-! ## What is in flight -/

/-- The ids of a session, as the turns before it gave them out. -/
structure Numbered (past : List Turn) (s : Session) : Prop where
  next : s.connection.nextPkid = UInt16.ofNat ((deliveries past).length + 1)
  inflight : ∀ p q tag, s.connection.inflight p = some (q, tag) ↔ LastUnder past p q tag

theorem numbered_new : Numbered [] .new where
  next := rfl
  inflight p q tag := by
    constructor
    · rintro ⟨⟩
    · exact fun last => absurd last since_nil

theorem lastUnder_snoc {past : List Turn} {t : Turn} {p : UInt16} {q : String} {tag : DeliveryTag} :
    LastUnder (past ++ [t]) p q tag ↔
      (∃ d, t.delivery = some d ∧ t.pkid = p ∧ d.queue = q ∧ d.tag = tag) ∨
        (LastUnder past p q tag ∧ ¬ t.Uses p) := since_snoc

theorem Turn.acks_of_delivery {t : Turn} {d : Incoming} (sends : t.delivery = some d) :
    t.acks = none := by
  obtain ⟨a, w, s, after, left⟩ := t
  cases a with
  | deliver => rfl
  | packet | proceed | tick | handOver | hangUp => cases sends

theorem deliveries_snoc (past : List Turn) (t : Turn) :
    deliveries (past ++ [t]) = deliveries past ++ t.delivery.toList := filterMap_last _ past t

/-- One turn keeps the account of the ids. -/
theorem Numbered.next_turn {past : List Turn} {t : Turn} {s : Session}
    (numbered : Numbered past t.before) (numbers : Numbers t s) : Numbered (past ++ [t]) s := by
  cases sends : t.delivery with
  | some d =>
      obtain ⟨next, inflight⟩ := numbers.sent d sends
      constructor
      · have before : t.pkid = UInt16.ofNat ((deliveries past).length + 1) := numbered.next
        rw [next, before, deliveries_snoc, sends, Option.toList_some, List.length_append,
          List.length_singleton, UInt16.ofNat_add ((deliveries past).length + 1) 1]
        rfl
      · intro p q tag
        rw [lastUnder_snoc, inflight, Function.update_apply]
        have acks := Turn.acks_of_delivery sends
        by_cases here : p = t.pkid
        · have uses : t.Uses p := .inl ⟨d, sends, here.symm⟩
          simp [here, sends, show t.Uses t.pkid from here ▸ uses]
        · have unused : ¬ t.Uses p := by
            rintro (⟨d', -, id⟩ | ack)
            · exact here id.symm
            · rw [acks] at ack
              cases ack
          simp [here, Ne.symm here, unused, numbered.inflight]
  | none =>
      have undelivered (p : UInt16) (q : String) (tag : DeliveryTag) :
          ¬ ∃ d, t.delivery = some d ∧ t.pkid = p ∧ d.queue = q ∧ d.tag = tag := by
        rintro ⟨d, sends', -⟩
        rw [sends] at sends'
        cases sends'
      cases acks : t.acks with
      | none =>
          obtain ⟨next, inflight⟩ := numbers.kept sends acks
          constructor
          · rw [next, deliveries_snoc, sends, Option.toList_none, List.append_nil]
            exact numbered.next
          · intro p q tag
            have unused : ¬ t.Uses p := by simp [Turn.Uses, sends, acks]
            rw [lastUnder_snoc, inflight, or_iff_right (undelivered p q tag), and_iff_left unused]
            exact numbered.inflight p q tag
      | some acked =>
          obtain ⟨next, inflight⟩ := numbers.acked acked acks
          constructor
          · rw [next, deliveries_snoc, sends, Option.toList_none, List.append_nil]
            exact numbered.next
          · intro p q tag
            rw [lastUnder_snoc, inflight, or_iff_right (undelivered p q tag), Function.update_apply]
            by_cases here : p = acked
            · simp [here, Turn.Uses, acks]
            · have unused : ¬ t.Uses p := by simp [Turn.Uses, sends, acks, Ne.symm here]
              simp [here, unused, numbered.inflight]

/-! ## Whole runs -/

section Runs

variable (bc : Bincode) (ids : Nat → UInt64) (engine : AppEngine)

variable {bc ids engine}

/-- A run that has a turn has an open session to take it from. -/
theorem turns_cons {s : Option Session} {run : List Next} {t : Turn} {later : List Turn}
    (split : turns bc ids engine s run = t :: later) :
    (∃ s' given, s = some s' ∧ t.before = s'.given given) ∧
      t = taken bc ids engine t.before t.act t.world ∧
      ∃ rest, turns bc ids engine t.after rest = later := by
  cases s with
  | none => cases run <;> cases split
  | some s =>
      cases run with
      | nil => cases split
      | cons next rest =>
          rw [turns] at split
          cases split
          exact ⟨⟨s, next.given, rfl, rfl⟩, rfl, rest, rfl⟩

variable (bc ids engine) in
/-- What holds of a new connection and is kept by what strays give it and by its turns. -/
structure KeptByTurns (Inv : List Turn → Session → Prop) : Prop where
  initially : Inv [] .new
  gives : ∀ past s given, Inv past s → Inv past (s.given given)
  next : ∀ past t s, Inv past t.before → t = taken bc ids engine t.before t.act t.world →
    t.after = some s → Inv (past ++ [t]) s

section Kept

variable {Inv : List Turn → Session → Prop} (kept : KeptByTurns bc ids engine Inv)
include kept

theorem KeptByTurns.from_session (past : List Turn) {before : List Turn} {s : Option Session}
    (start : ∀ s', s = some s' → Inv past s') {run : List Next} {t : Turn} {later : List Turn}
    (split : turns bc ids engine s run = before ++ t :: later) :
    Inv (past ++ before) t.before ∧ t = taken bc ids engine t.before t.act t.world ∧
      ∃ rest, turns bc ids engine t.after rest = later := by
  induction before generalizing past s run with
  | nil =>
      obtain ⟨⟨s', given, opened, same⟩, made, rest⟩ := turns_cons split
      rw [List.append_nil, same]
      exact ⟨kept.gives past s' given (start s' opened), same ▸ made, rest⟩
  | cons b before ih =>
      obtain ⟨⟨s', given, opened, same⟩, made, rest, more⟩ := turns_cons split
      have before : Inv past b.before := same ▸ kept.gives past s' given (start s' opened)
      have ended := ih _ (fun s left => kept.next past b s before made left) more
      rwa [List.append_assoc] at ended

/-- Every turn is taken from a session that the turns before it left. -/
theorem KeptByTurns.before_turn {run : List Next} {past later : List Turn} {t : Turn}
    (split : turns bc ids engine (some .new) run = past ++ t :: later) :
    Inv past t.before ∧ t = taken bc ids engine t.before t.act t.world ∧
      ∃ rest, turns bc ids engine t.after rest = later :=
  kept.from_session [] (fun _ opened => Option.some.inj opened ▸ kept.initially) split

end Kept

theorem numbered_kept : KeptByTurns bc ids engine Numbered where
  initially := numbered_new
  gives _ _ _ numbered := ⟨numbered.next, numbered.inflight⟩
  next past t s numbered made left := by
    refine numbered.next_turn ?_
    rw [made] at left ⊢
    exact numbers_turn left

/-- A turn that sends is the loop's, with something in the channel. -/
theorem Turn.of_delivery {t : Turn} {d : Incoming} (sends : t.delivery = some d) :
    ∃ c rest, t.act = .deliver ∧ t.before = ⟨.waiting, c⟩ ∧ c.channel = d :: rest := by
  obtain ⟨a, w, ⟨phase, c⟩, after, left⟩ := t
  cases a with
  | deliver =>
      cases phase with
      | waiting =>
          cases queued : c.channel with
          | nil => simp [delivery, queued] at sends
          | cons d' rest =>
              simp only [delivery, queued, Option.some.injEq] at sends
              exact ⟨c, rest, rfl, rfl, by rw [queued, sends]⟩
      | publishing | subscribing => cases sends
  | packet | proceed | tick | handOver | hangUp => cases sends

/-- A turn that acknowledges handles a packet. -/
theorem Turn.of_acks {t : Turn} {p : UInt16} (acks : t.acks = some p) :
    ∃ c, t.act = .packet (.pubAck p) ∧ t.before = ⟨.waiting, c⟩ := by
  obtain ⟨a, w, ⟨phase, c⟩, after, left⟩ := t
  cases a with
  | packet packet =>
      cases phase with
      | waiting =>
          cases packet with
          | pubAck pkid =>
              cases acks
              exact ⟨c, rfl, rfl⟩
          | _ => cases acks
      | publishing | subscribing => cases packet <;> cases acks
  | deliver | proceed | tick | handOver | hangUp => cases acks

variable (bc ids engine)

theorem Turn.ends {t : Turn} (made : t = taken bc ids engine t.before t.act t.world) :
    t.after = (turn bc ids engine t.before t.act t.world).1 ∧
      t.left = (turn bc ids engine t.before t.act t.world).2 :=
  ⟨congrArg Turn.after made, congrArg Turn.left made⟩

theorem sent_turn {t : Turn} (made : t = taken bc ids engine t.before t.act t.world) {d : Incoming}
    (sends : t.delivery = some d) :
    t.left = t.world.wrote (deliveryPacket d t.pkid) ∧ (t.world.socket 0 = false → t.after = none) := by
  obtain ⟨c, rest, act, before, queued⟩ := Turn.of_delivery sends
  obtain ⟨after, left⟩ := Turn.ends bc ids engine made
  rw [act, before, turn_deliver queued] at after left
  rw [left, after, Turn.pkid, before]
  exact ⟨rfl, fun refused => by simp [refused]⟩

theorem acked_turn {t : Turn} (made : t = taken bc ids engine t.before t.act t.world) {p : UInt16}
    (acks : t.acks = some p) :
    (∀ q tag, t.before.connection.inflight p = some (q, tag) →
      t.left = ((ackMessage bc engine q tag).run (Daemon.handle ids) t.world).2) ∧
    (t.before.connection.inflight p = none → t.left = t.world ∧ t.after = some t.before) := by
  obtain ⟨c, act, before⟩ := Turn.of_acks acks
  obtain ⟨after, left⟩ := Turn.ends bc ids engine made
  rw [act, before] at after left
  rw [before]
  constructor
  · intro q tag present
    rw [turn_pubAck present] at left
    exact left
  · intro absent
    rw [turn_pubAck_unknown absent] at after left
    exact ⟨left, after⟩

/-- Each delivery goes out under its number modulo `2 ^ 16`; what is in flight is what was last
    sent under each id and not acknowledged; and an acknowledgement acks that on the queue it was
    consumed from, or does nothing. -/
theorem packetIds_exact (run : List Next) (past : List Turn) (t : Turn)
    (later : List Turn) (split : turns bc ids engine (some .new) run = past ++ t :: later) :
    (∀ d, t.delivery = some d → t.left =
      t.world.wrote (deliveryPacket d (UInt16.ofNat ((deliveries past).length + 1)))) ∧
    (∀ p q tag, t.before.connection.inflight p = some (q, tag) ↔ LastUnder past p q tag) ∧
    (∀ p, t.acks = some p →
      (∀ q tag, LastUnder past p q tag →
        t.left = ((ackMessage bc engine q tag).run (Daemon.handle ids) t.world).2) ∧
      ((∀ q tag, ¬ LastUnder past p q tag) → t.left = t.world ∧ t.after = some t.before)) := by
  obtain ⟨numbered, made, -⟩ := numbered_kept.before_turn split
  refine ⟨fun d sends => ?_, numbered.inflight, fun p acks => ⟨fun q tag last => ?_, fun none => ?_⟩⟩
  · rw [← numbered.next]
    exact (sent_turn bc ids engine made sends).1
  · exact (acked_turn bc ids engine made acks).1 q tag ((numbered.inflight p q tag).mpr last)
  · refine (acked_turn bc ids engine made acks).2 ?_
    cases present : t.before.connection.inflight p with
    | none => rfl
    | some d => exact absurd ((numbered.inflight p d.1 d.2).mp present) (none d.1 d.2)

/-- A client subscribes, is sent the queue's message and acknowledges it. -/
def oneDelivery : List Next :=
  [.packet (.subscribe 1 [("q", .atLeastOnce)]), .proceed, .proceed, .tick 0, .handOver 0, .deliver,
    .packet (.pubAck 1)].map (⟨[], ·, serving full⟩)

/-- Its turns. -/
def oneAcked : List Turn := turns bincode (counter 0) .solo (some .new) oneDelivery

theorem oneAcked_length : oneAcked.length = 7 := by decide +kernel

/-- The turn of a number among them. -/
def acked (i : Fin 7) : Turn := oneAcked.get (i.cast oneAcked_length.symm)

theorem oneAcked_split (i : Fin 7) :
    oneAcked = oneAcked.take i ++ acked i :: oneAcked.drop (i + 1) := by
  have here : acked i :: oneAcked.drop (i + 1) = oneAcked.drop i := List.getElem_cons_drop ..
  rw [here, List.take_append_drop]

theorem take_six : oneAcked.take 6 = oneAcked.take 5 ++ acked 5 :: [] :=
  List.take_succ_eq_append_getElem (show 5 < oneAcked.length by rw [oneAcked_length]; decide)

theorem oneAcked_acks :
    (acked 6).acks = some 1 ∧ (acked 6).left =
      ((ackMessage bincode .solo "q" 0).run (Daemon.handle (counter 0)) (acked 6).world).2 := by
  have acks : (acked 6).acks = some 1 := by decide +kernel
  have last : LastUnder (oneAcked.take 6) 1 "q" 0 := by
    refine ⟨oneAcked.take 5, acked 5, [], take_six, ⟨⟨"q", 0, []⟩, ?_, ?_, rfl, rfl⟩, by simp⟩
    · decide +kernel
    · decide +kernel
  obtain ⟨-, -, account⟩ := packetIds_exact bincode (counter 0) .solo oneDelivery _ _ _
    (oneAcked_split 6)
  exact ⟨acks, (account 1 acks).1 "q" 0 last⟩

/-! ## Where id zero is refused -/

/-- The turn that sends the delivery of a given number. -/
theorem deliveries_split {past : List Turn} {n : Nat} (more : n < (deliveries past).length) :
    ∃ earlier t since d, past = earlier ++ t :: since ∧ t.delivery = some d ∧
      (deliveries earlier).length = n := by
  induction past using List.reverseRecOn with
  | nil => simp [deliveries] at more
  | append_singleton past t ih =>
      rw [deliveries_snoc] at more
      by_cases before : n < (deliveries past).length
      · obtain ⟨earlier, u, since, d, rfl, rest⟩ := ih before
        exact ⟨earlier, u, since ++ [t], d, by simp, rest⟩
      · cases sends : t.delivery with
        | none =>
            rw [sends, Option.toList_none, List.append_nil] at more
            exact absurd more before
        | some d =>
            rw [sends, Option.toList_some, List.length_append, List.length_singleton] at more
            exact ⟨past, t, [], d, rfl, sends, by omega⟩

section Refusing

variable {run : List Next}

/-- The account of a turn in a run from the start. -/
theorem turn_numbered {past later : List Turn} {t : Turn}
    (split : turns bc ids engine (some .new) run = past ++ t :: later) :
    t.pkid = UInt16.ofNat ((deliveries past).length + 1) ∧
      t = taken bc ids engine t.before t.act t.world ∧ (t.after = none → later = []) := by
  obtain ⟨numbered, made, rest, more⟩ := numbered_kept.before_turn split
  refine ⟨numbered.next, made, fun closed => ?_⟩
  rw [← more, closed]
  cases rest <;> rfl

/-- The ids that were given out are the numbers from one on. -/
theorem sentIds_eq {past later : List Turn}
    (split : turns bc ids engine (some .new) run = past ++ later) :
    sentIds past = (List.range (deliveries past).length).map fun k => UInt16.ofNat (k + 1) := by
  induction past using List.reverseRecOn generalizing later with
  | nil => rfl
  | append_singleton past t ih =>
      rw [List.append_assoc] at split
      have before := ih split
      have id := (turn_numbered bc ids engine split).1
      rw [sentIds, filterMap_last, ← sentIds, before, deliveries_snoc]
      cases t.delivery with
      | none => simp
      | some d => simp [List.range_succ, id]

theorem sentIds_nodup {past later : List Turn}
    (split : turns bc ids engine (some .new) run = past ++ later)
    (few : (deliveries past).length ≤ 65536) : (sentIds past).Nodup := by
  rw [sentIds_eq bc ids engine split]
  refine List.Nodup.map_on (fun j left k right same => ?_) List.nodup_range
  have value := congrArg UInt16.toNat same
  rw [UInt16.toNat_ofNat', UInt16.toNat_ofNat'] at value
  have := List.mem_range.mp left
  have := List.mem_range.mp right
  omega

variable (refuses : ∀ t ∈ turns bc ids engine (some .new) run, ∀ d, t.delivery = some d →
  t.pkid = 0 → t.world.socket 0 = false)
include refuses

/-- Nothing follows the delivery that would have id zero. -/
theorem refused_last {past later : List Turn} {t : Turn} {d : Incoming}
    (split : turns bc ids engine (some .new) run = past ++ t :: later) (sends : t.delivery = some d)
    (zero : t.pkid = 0) : later = [] := by
  obtain ⟨-, made, closes⟩ := turn_numbered bc ids engine split
  have member : t ∈ turns bc ids engine (some .new) run :=
    split ▸ List.mem_append_right _ List.mem_cons_self
  exact closes ((sent_turn bc ids engine made sends).2 (refuses t member d sends zero))

/-- A turn has less than `2 ^ 16` deliveries before it. -/
theorem deliveries_before {past later : List Turn} {t : Turn}
    (split : turns bc ids engine (some .new) run = past ++ t :: later) :
    (deliveries past).length < 65536 := by
  by_contra many
  obtain ⟨earlier, u, since, d, rfl, sends, number⟩ :=
    deliveries_split (show 65535 < (deliveries past).length by omega)
  rw [List.append_assoc, List.cons_append] at split
  have zero : u.pkid = 0 := by
    rw [(turn_numbered bc ids engine split).1, number]
    rfl
  have last := refused_last bc ids engine refuses split sends zero
  simp at last

/-- The number of a delivery that is not the last turn, read off its id. -/
theorem number_of_pkid {past later : List Turn} {t u : Turn} {d : Incoming}
    (split : turns bc ids engine (some .new) run = past ++ t :: u :: later)
    (sends : t.delivery = some d) : (deliveries past).length + 1 = t.pkid.toNat := by
  have few := deliveries_before bc ids engine refuses split
  have id := (turn_numbered bc ids engine split).1
  have value : t.pkid.toNat = ((deliveries past).length + 1) % 65536 := by
    rw [id]
    exact UInt16.toNat_ofNat'
  by_cases last : (deliveries past).length + 1 = 65536
  · have zero : t.pkid = 0 := by
      rw [id, last]
      rfl
    have none := refused_last bc ids engine refuses split sends zero
    cases none
  · omega

variable {past later : List Turn} {t : Turn} {p : UInt16} {q : String} {tag : DeliveryTag}
  (split : turns bc ids engine (some .new) run = past ++ t :: later)
include split

/-- What was last sent under an id is the delivery of that number. -/
theorem lastUnder_iff : LastUnder past p q tag ↔
    ∃ earlier u since d, past = earlier ++ u :: since ∧ u.delivery = some d ∧
      (deliveries earlier).length + 1 = p.toNat ∧ d.queue = q ∧ d.tag = tag ∧
      ∀ v ∈ since, v.acks ≠ some p := by
  constructor
  · rintro ⟨earlier, u, since, rfl, ⟨d, sends, rfl, queue, tag⟩, unused⟩
    refine ⟨earlier, u, since, d, rfl, sends, ?_, queue, tag, fun v member acks => ?_⟩
    · obtain ⟨next, rest, more⟩ : ∃ next rest, since ++ t :: later = next :: rest := by
        cases since <;> exact ⟨_, _, rfl⟩
      rw [List.append_assoc, List.cons_append, more] at split
      exact number_of_pkid bc ids engine refuses split sends
    · exact unused v member (.inr acks)
  · rintro ⟨earlier, u, since, d, rfl, sends, number, queue, tag, unacked⟩
    rw [List.append_assoc, List.cons_append] at split
    have id : u.pkid = p := by
      rw [(turn_numbered bc ids engine split).1, number]
      exact UInt16.ofNat_toNat
    refine ⟨earlier, u, since, rfl, ⟨d, sends, id, queue, tag⟩, fun v member uses => ?_⟩
    rcases uses with ⟨d', again, same⟩ | acks
    · -- a later delivery has a greater number, and it is not the last turn
      obtain ⟨between, after, rfl⟩ := List.append_of_mem member
      obtain ⟨next, rest, more⟩ : ∃ next rest, after ++ t :: later = next :: rest := by
        cases after <;> exact ⟨_, _, rfl⟩
      have split' : turns bc ids engine (some .new) run =
          (earlier ++ u :: between) ++ v :: next :: rest := by
        rw [split, ← more]
        simp
      have greater := number_of_pkid bc ids engine refuses split' again
      have counted : (deliveries (earlier ++ u :: between)).length =
          (deliveries earlier).length + (deliveries (u :: between)).length := by
        rw [deliveries, List.filterMap_append, List.length_append]
        rfl
      have one : (deliveries (u :: between)).length = (deliveries between).length + 1 := by
        rw [deliveries, List.filterMap_cons_some sends]
        rfl
      rw [same, ← number] at greater
      omega
    · exact unacked v member acks

/-- No other delivery has the id, so the last one under it is the one that is unacknowledged. -/
theorem unacked_iff : Unacked past p q tag ↔ LastUnder past p q tag := by
  rw [lastUnder_iff bc ids engine refuses split]
  constructor
  · rintro ⟨earlier, u, since, rfl, ⟨d, sends, rfl, queue, tag⟩, unacked⟩
    refine ⟨earlier, u, since, d, rfl, sends, ?_, queue, tag, unacked⟩
    obtain ⟨next, rest, more⟩ : ∃ next rest, since ++ t :: later = next :: rest := by
      cases since <;> exact ⟨_, _, rfl⟩
    rw [List.append_assoc, List.cons_append, more] at split
    exact number_of_pkid bc ids engine refuses split sends
  · rintro ⟨earlier, u, since, d, rfl, sends, number, queue, tag, unacked⟩
    rw [List.append_assoc, List.cons_append] at split
    refine ⟨earlier, u, since, rfl, ⟨d, sends, ?_, queue, tag⟩, unacked⟩
    rw [(turn_numbered bc ids engine split).1, number]
    exact UInt16.ofNat_toNat

theorem sentIds_nonzero : 0 ∉ sentIds past := by
  have few := deliveries_before bc ids engine refuses split
  rw [sentIds_eq bc ids engine split]
  intro member
  obtain ⟨k, below, zero⟩ := List.mem_map.mp member
  have value := congrArg UInt16.toNat zero
  rw [UInt16.toNat_ofNat'] at value
  have := List.mem_range.mp below
  have : (0 : UInt16).toNat = 0 := rfl
  omega

end Refusing

/-- Where a packet with id zero is never written, the ids that were given out are different and
    none is zero, what is in flight is what was sent and not acknowledged, each under its id, and an
    acknowledgement acks what was sent under its id, or does nothing. -/
theorem unacked_exact (run : List Next)
    (refuses : ∀ t ∈ turns bc ids engine (some .new) run, ∀ d, t.delivery = some d →
      t.pkid = 0 → t.world.socket 0 = false)
    (past : List Turn) (t : Turn) (later : List Turn)
    (split : turns bc ids engine (some .new) run = past ++ t :: later) :
    (sentIds past).Nodup ∧ 0 ∉ sentIds past ∧
    (∀ p q tag, t.before.connection.inflight p = some (q, tag) ↔ Unacked past p q tag) ∧
    ∀ p, t.acks = some p →
      (∀ q tag, Unacked past p q tag →
        t.left = ((ackMessage bc engine q tag).run (Daemon.handle ids) t.world).2) ∧
      ((∀ q tag, ¬ Unacked past p q tag) → t.left = t.world ∧ t.after = some t.before) := by
  obtain ⟨numbered, made, -⟩ := numbered_kept.before_turn split
  have few := deliveries_before bc ids engine refuses split
  have inflight (p : UInt16) (q : String) (tag : DeliveryTag) := (numbered.inflight p q tag).trans
    (unacked_iff bc ids engine refuses split).symm
  refine ⟨sentIds_nodup bc ids engine split few.le, sentIds_nonzero bc ids engine refuses split,
    inflight, fun p acks => ?_⟩
  obtain ⟨known, unknown⟩ := acked_turn bc ids engine made acks
  refine ⟨fun q tag sent => known q tag ((inflight p q tag).mpr sent), fun none => unknown ?_⟩
  cases present : t.before.connection.inflight p with
  | none => rfl
  | some d => exact absurd ((inflight p d.1 d.2).mp present) (none d.1 d.2)

theorem oneAcked_unacked :
    (acked 6).before.connection.inflight 1 = some ("q", 0) ∧
      Unacked (oneAcked.take 6) 1 "q" 0 := by
  have numbered : ∀ t ∈ oneAcked, t.pkid ≠ 0 := by decide +kernel
  have present : (acked 6).before.connection.inflight 1 = some ("q", 0) := by decide +kernel
  obtain ⟨-, -, inflight, -⟩ := unacked_exact bincode (counter 0) .solo oneDelivery
    (fun t member _ _ zero => absurd zero (numbered t member)) _ _ _ (oneAcked_split 6)
  exact ⟨present, (inflight 1 "q" 0).mp present⟩

/-- Where a packet with id zero is never written, no two deliveries of a connection share an id:
    the client's acknowledgement of `p` acks the `p`-th delivery the first time it comes after it,
    and does nothing whenever else. -/
theorem pubAck_acks_numbered (run : List Next)
    (refuses : ∀ t ∈ turns bc ids engine (some .new) run, ∀ d, t.delivery = some d →
      t.pkid = 0 → t.world.socket 0 = false) :
    (deliveries (turns bc ids engine (some .new) run)).length ≤ 65536 ∧
    (sentIds (turns bc ids engine (some .new) run)).Nodup ∧
    ∀ past t later p, turns bc ids engine (some .new) run = past ++ t :: later → t.acks = some p →
      (∀ earlier u since d, past = earlier ++ u :: since → u.delivery = some d →
        (deliveries earlier).length + 1 = p.toNat → (∀ v ∈ since, v.acks ≠ some p) →
        t.left = ((ackMessage bc engine d.queue d.tag).run (Daemon.handle ids) t.world).2) ∧
      ((∀ earlier u since d, past = earlier ++ u :: since → u.delivery = some d →
        (deliveries earlier).length + 1 = p.toNat → ∃ v ∈ since, v.acks = some p) →
        t.left = t.world ∧ t.after = some t.before) := by
  have few : (deliveries (turns bc ids engine (some .new) run)).length ≤ 65536 := by
    by_contra many
    obtain ⟨past, t, later, d, split, sends, number⟩ := deliveries_split (Nat.lt_of_not_le many)
    have few := deliveries_before bc ids engine refuses split
    omega
  refine ⟨few, sentIds_nodup bc ids engine (List.append_nil _).symm few, ?_⟩
  · intro past t later p split acks
    obtain ⟨numbered, made, -⟩ := numbered_kept.before_turn split
    have last (q : String) (tag : DeliveryTag) := (numbered.inflight p q tag).trans
      (lastUnder_iff bc ids engine refuses split)
    obtain ⟨known, unknown⟩ := acked_turn bc ids engine made acks
    constructor
    · intro earlier u since d parts sends number unacked
      exact known _ _ ((last _ _).mpr ⟨earlier, u, since, d, parts, sends, number, rfl, rfl, unacked⟩)
    · intro acked
      refine unknown ?_
      cases present : t.before.connection.inflight p with
      | none => rfl
      | some delivery =>
          obtain ⟨earlier, u, since, d, parts, sends, number, -, -, unacked⟩ :=
            (last delivery.1 delivery.2).mp present
          obtain ⟨v, member, again⟩ := acked earlier u since d parts sends number
          exact absurd again (unacked v member)

theorem oneAcked_acks_first :
    (deliveries (oneAcked.take 5)).length + 1 = (1 : UInt16).toNat ∧ (acked 6).left =
      ((ackMessage bincode .solo "q" 0).run (Daemon.handle (counter 0)) (acked 6).world).2 := by
  have number : (deliveries (oneAcked.take 5)).length + 1 = (1 : UInt16).toNat := by decide +kernel
  have numbered : ∀ t ∈ oneAcked, t.pkid ≠ 0 := by decide +kernel
  obtain ⟨-, -, account⟩ := pubAck_acks_numbered bincode (counter 0) .solo oneDelivery
    fun t member _ _ zero => absurd zero (numbered t member)
  exact ⟨number, (account _ _ _ 1 (oneAcked_split 6) (by decide +kernel)).1 (oneAcked.take 5)
    (acked 5) [] ⟨"q", 0, []⟩ take_six (by decide +kernel) number (by simp)⟩

end Runs

end PelicanQ.Mqtt
