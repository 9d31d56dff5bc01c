import WeftWarp.Theorems.FanoutVerbs
import WeftWarp.Theorems.FanoutCleanup

/-! Where publications are written.

    A connection has one delivery slot, which every subscription overwrites and which is freed when its stream is
    closed. So a publication reaches the stream of a subscription as long as no connection subscribes on a second stream
    while the first is open. -/

namespace WeftWarp.Fanout

open Feed

/-! ### Sessions of subscriptions and publications -/

/-- A topic fits in a header. -/
abbrev Topic := { topic : Bytes // newline ∉ topic }

/-- A payload has the size of a packet. -/
abbrev Payload := { payload : Bytes // payload.length = kEntityPacketSize }

/-- A client opens, subscribes, publishes or ends a stream. -/
inductive Act where
  | opened (key : Key)
  | sub (key : Key) (topic : Topic)
  | pub (key : Key) (topic : Topic) (payload : Payload)
  | fin (key : Key)
  | reset (key : Key)

/-- The event that the server gets. -/
def Act.event : Act → Event
  | .opened key => .streamData key.1 key.2 []
  | .sub key topic => .streamData key.1 key.2 (subVerb ++ space :: topic.1 ++ [newline])
  | .pub key topic payload => .streamData key.1 key.2 (pubVerb ++ space :: topic.1 ++ [newline] ++ payload.1)
  | .fin key => .streamFin key.1 key.2 []
  | .reset key => .streamReset key.1 key.2

/-- The server, with the topics of the `SUB` headers that were sent on each stream since it was opened. -/
structure Session (K : Type) where
  bridge : BridgeState K
  sent : Key → List Bytes

section Session
variable {K : Type}

/-- No stream is open. -/
def Session.start (k : K) : Session K := ⟨{ core := k }, fun _ => []⟩

/-- The server answers, and the topics sent are noted. -/
def Session.act (core : Core K) (session : Session K) (act : Act) : Session K where
  bridge := (fanoutStreamCallback core act.event session.bridge).1
  sent :=
    match act with
    | .sub key topic => Function.update session.sent key (session.sent key ++ [topic.1])
    | .fin key | .reset key => Function.update session.sent key []
    | _ => session.sent

/-- A connection sends a `SUB` only when it has sent none on a stream that is still open. -/
def SubscribesAlone (session : Session K) : Act → Prop
  | .sub key _ => ∀ streamId, session.sent (key.1, streamId) = []
  | _ => True

/-- A connection with one subscription at a time acts. -/
def Acts (core : Core K) (session : Session K) (act : Option Act) (session' : Session K) : Prop :=
  ∃ a, act = some a ∧ SubscribesAlone session a ∧ session' = session.act core a

/-! ### What each act does -/

/-- Waiting for a header. -/
structure Ready (stream : StreamState) : Prop where
  mode : stream.headerParsed = false
  sketch : stream.isSketch = false
  zone : stream.isZonePub = false
  empty : stream.buf = []

/-- Subscribed: nothing further is parsed. -/
structure Idle (topic : Bytes) (stream : StreamState) : Prop where
  mode : stream.headerParsed = true
  sketch : stream.isSketch = false
  pub : stream.isPub = false
  zone : stream.isZonePub = false
  topic : stream.topic = topic

variable (core : Core K) {key : Key} {stream : StreamState} {bridge : BridgeState K} {bytes topic : Bytes}

theorem receive_eq (found : (bridge.streams.find? key).getD {} = stream) {input rest : Bytes}
    {items : List (Option Call)} {tables : Tables K} {parse : Parse} (buffered : stream.buf ++ bytes = input)
    (consumes : Consumes (pumpRound core key.1 key.2) (bridge.toTables, stream.toParse) input items (tables, parse) rest)
    (waits : Waits (pumpRound core key.1 key.2) (tables, parse) rest) (noHalt : none ∉ items) :
    receive core key.1 key.2 bytes bridge =
      ({ tables with streams := bridge.streams.set key { parse with buf := rest } }, items.reduceOption) := by
  subst buffered
  have drained := (incremental core key.1 key.2).drain_eq consumes waits noHalt
  simp only [receive, pumpStream, found, drained]

theorem waits_idle (idle : Idle topic stream) (tables : Tables K) :
    Waits (pumpRound core key.1 key.2) (tables, stream.toParse) bytes := by
  rw [Waits, pumpRound_idle idle.mode idle.sketch idle.pub idle.zone]
  rfl

/-- On a subscribed stream, bytes are kept and ignored. -/
theorem receive_idle (found : (bridge.streams.find? key).getD {} = stream) (idle : Idle topic stream) (bytes : Bytes) :
    receive core key.1 key.2 bytes bridge =
      ({ bridge with streams := bridge.streams.set key { stream with buf := stream.buf ++ bytes } }, []) :=
  receive_eq core found rfl (.refl _ _) (waits_idle core idle _) List.not_mem_nil

theorem Idle.buffer (idle : Idle topic stream) (buf : Bytes) : Idle topic { stream with buf := buf } :=
  ⟨idle.mode, idle.sketch, idle.pub, idle.zone, idle.topic⟩

theorem receive_nothing (found : (bridge.streams.find? key).getD {} = stream) (ready : Ready stream) :
    receive core key.1 key.2 [] bridge = ({ bridge with streams := bridge.streams.set key stream }, []) := by
  have buffered : stream.buf ++ [] = [] := by rw [ready.empty, List.append_nil]
  rw [receive_eq core found buffered (.refl _ _) ((incremental core key.1 key.2).waits_nil _) List.not_mem_nil,
    ← ready.empty]
  rfl

theorem receive_sub (found : (bridge.streams.find? key).getD {} = stream) (ready : Ready stream) (topic : Topic) :
    ∃ stream', Idle topic.1 stream' ∧
      receive core key.1 key.2 (subVerb ++ space :: topic.1 ++ [newline]) bridge =
        ({ handleSub core key.1 key.2 topic.1 bridge.toTables with streams := bridge.streams.set key stream' },
          [.handleSub topic.1]) := by
  have turn : Turn core key.1 key.2 (bridge.toTables, stream.toParse) (subVerb ++ space :: topic.1 ++ [newline])
      [some (.handleSub topic.1)] _ := .header ready.mode (by decide) (notMem_header (by decide) topic.2) .sub
  have idle : Idle topic.1 { stream with topic := topic.1, headerParsed := true, isPub := false, buf := [] } :=
    ⟨rfl, ready.sketch, rfl, ready.zone, rfl⟩
  have next := turn.next []
  rw [List.append_nil] at next
  have buffered : stream.buf ++ (subVerb ++ space :: topic.1 ++ [newline]) = subVerb ++ space :: topic.1 ++ [newline] := by
    rw [ready.empty, List.nil_append]
  exact ⟨_, idle, receive_eq core found buffered (.round next (.refl _ _)) (waits_idle core idle _) (by simp)⟩

theorem receive_pub (found : (bridge.streams.find? key).getD {} = stream) (ready : Ready stream) (topic : Topic)
    (payload : Payload) : ∃ stream', Ready stream' ∧
      receive core key.1 key.2 (pubVerb ++ space :: topic.1 ++ [newline] ++ payload.1) bridge =
        ({ handlePub core key.1 topic.1 payload.1 bridge.toTables with streams := bridge.streams.set key stream' },
          [.handlePub topic.1 payload.1]) := by
  have first : Turn core key.1 key.2 (bridge.toTables, stream.toParse) (pubVerb ++ space :: topic.1 ++ [newline]) [] _ :=
    .header ready.mode (by decide) (notMem_header (by decide) topic.2) .pub
  have second : Turn core key.1 key.2 (bridge.toTables, { stream.toParse with
      topic := topic.1, headerParsed := true, isPub := true }) payload.1 [some (.handlePub topic.1 payload.1)] _ :=
    .pub rfl ready.sketch rfl payload.2
  have consumes := consumes_two core key.1 key.2 first second []
  rw [List.append_nil] at consumes
  have buffered : stream.buf ++ (pubVerb ++ space :: topic.1 ++ [newline] ++ payload.1) =
      pubVerb ++ space :: topic.1 ++ [newline] ++ payload.1 := by rw [ready.empty, List.nil_append]
  exact ⟨{ stream with topic := topic.1, headerParsed := false, isPub := true, buf := [] },
    ⟨rfl, ready.sketch, ready.zone, rfl⟩,
    receive_eq core found buffered consumes ((incremental core key.1 key.2).waits_nil _) (by simp)⟩

/-! ### The invariant -/

variable {core} {member : K → UInt64 → UInt64 → Prop}

/-- Streams without a subscription wait for a header. A subscribed stream is the delivery stream of its connection,
    which is in the room of the topic, and it is the only one of the connection. -/
structure Served (member : K → UInt64 → UInt64 → Prop) (bridge : BridgeState K) (sent : Key → List Bytes) : Prop where
  rooms : ∀ t r, bridge.topicToRoom.find? t = some r → r ≠ sentinel
  ready : ∀ key stream, bridge.streams.find? key = some stream → sent key = [] → Ready stream
  idle : ∀ key t, t ∈ sent key → ∃ stream, bridge.streams.find? key = some stream ∧ Idle t stream
  delivery : ∀ key, sent key ≠ [] → bridge.delivery.find? key.1 = some key
  joined : ∀ key t, t ∈ sent key → ∃ room, bridge.topicToRoom.find? t = some room ∧ member bridge.core room key.1
  alone : ∀ key streamId, sent key ≠ [] → sent (key.1, streamId) ≠ [] → streamId = key.2

variable {sent : Key → List Bytes}

theorem Served.start (k : K) : Served member (Session.start k).bridge (Session.start k).sent where
  rooms t r known := by cases known
  ready key stream found := by cases found
  idle key t mem := by cases mem
  delivery key sent := absurd rfl sent
  joined key t mem := by cases mem
  alone key streamId sent := absurd rfl sent

/-- A change that keeps the rooms, the deliveries and the memberships, on a stream that stays what it was. -/
theorem Served.of_stream (served : Served member bridge sent) {tables : Tables K}
    (registers : Registers core bridge.toTables tables) (delivery : tables.delivery = bridge.delivery)
    (members : member tables.core = member bridge.core) (ready : sent key = [] → Ready stream)
    (idle : ∀ t ∈ sent key, Idle t stream) :
    Served member { tables with streams := bridge.streams.set key stream } sent where
  rooms := registers.valid served.rooms
  ready key' stream' found sent := by
    rw [OrderedMap.find?_set] at found
    split at found
    · rename_i same
      subst same
      cases found
      exact ready sent
    · exact served.ready key' stream' found sent
  idle key' t mem := by
    rw [OrderedMap.find?_set]
    split
    · rename_i same
      subst same
      exact ⟨stream, rfl, idle t mem⟩
    · exact served.idle key' t mem
  delivery key' sent := by
    rw [delivery]
    exact served.delivery key' sent
  joined key' t mem := by
    obtain ⟨room, known, isMember⟩ := served.joined key' t mem
    exact ⟨room, registers.keeps known, by rwa [members]⟩
  alone := served.alone

/-- A stream that is not open yet is like one that waits for a header. -/
theorem Served.kind (served : Served member bridge sent) (key : Key) :
    sent key = [] ∧ Ready ((bridge.streams.find? key).getD {}) ∨
      (∃ t, t ∈ sent key) ∧ ∀ t ∈ sent key, Idle t ((bridge.streams.find? key).getD {}) := by
  cases sent : sent key with
  | nil =>
    refine .inl ⟨rfl, ?_⟩
    cases entry : bridge.streams.find? key with
    | none => exact ⟨rfl, rfl, rfl, rfl⟩
    | some stream => exact served.ready key stream entry sent
  | cons t ts =>
    refine .inr ⟨⟨t, List.mem_cons_self⟩, fun t' mem => ?_⟩
    obtain ⟨stream, found, idle⟩ := served.idle key t' (by rwa [sent])
    rw [found]
    exact idle

theorem RoomFor.member_eq (plain : PlainRooms core member) {state state' : Tables K} {roomId : UInt64}
    (room : RoomFor core topic state roomId state') : member state'.core = member state.core := by
  rcases room.core_eq with same | alloc
  · rw [same]
  · rw [alloc, plain.allocRoom]

theorem Served.ignored (served : Served member bridge sent) (key : Key) (ignored : sent key = [] → bytes = []) :
    Served member (receive core key.1 key.2 bytes bridge).1 sent := by
  have same : Registers core bridge.toTables bridge.toTables := .inl rfl
  rcases served.kind key with ⟨none, ready⟩ | ⟨⟨t, mem⟩, idle⟩
  · rw [ignored none, receive_nothing core rfl ready]
    refine served.of_stream same rfl rfl (fun _ => ready) fun t mem => ?_
    rw [none] at mem
    cases mem
  · rw [receive_idle core rfl (idle t mem)]
    refine served.of_stream same rfl rfl (fun none => ?_) fun t mem => (idle t mem).buffer _
    rw [none] at mem
    cases mem

theorem Served.published (plain : PlainRooms core member) (served : Served member bridge sent)
    (key : Key) (none : sent key = []) (topic : Topic) (payload : Payload) :
    Served member (receive core key.1 key.2 (pubVerb ++ space :: topic.1 ++ [newline] ++ payload.1) bridge).1 sent := by
  rcases served.kind key with ⟨-, ready⟩ | ⟨⟨t, mem⟩, -⟩
  · obtain ⟨stream', ready', eq⟩ := receive_pub core rfl ready topic payload
    obtain ⟨roomId, state', sent, room, eq'⟩ := handlePub_eq core key.1 topic.1 payload.1 bridge.toTables
    rw [eq, eq']
    refine served.of_stream room.registers room.delivery_eq (room.member_eq plain) (fun _ => ready') fun t mem => ?_
    rw [none] at mem
    cases mem
  · rw [none] at mem
    cases mem

theorem Served.subscribed (plain : PlainRooms core member)
    (alloc : ∀ k, ∃ roomId, (core.allocRoom k).1 = some roomId ∧ roomId ≠ sentinel)
    (served : Served member bridge sent) (key : Key) (alone : ∀ streamId, sent (key.1, streamId) = [])
    (topic : Topic) :
    Served member (receive core key.1 key.2 (subVerb ++ space :: topic.1 ++ [newline]) bridge).1
      (Function.update sent key (sent key ++ [topic.1])) := by
  have none : sent key = [] := alone key.2
  rcases served.kind key with ⟨-, ready⟩ | ⟨⟨t, mem⟩, -⟩
  · obtain ⟨stream', idle, eq⟩ := receive_sub core rfl ready topic
    obtain ⟨roomId, mid, joins⟩ := handleSub_joins core key.1 key.2 topic.1 bridge.toTables
    have valid := joins.room.valid served.rooms (.inr (alloc _))
    rw [eq, none, List.nil_append]
    -- Other streams with a subscription belong to other connections.
    have others {key' : Key} (ne : key' ≠ key) (held : Function.update sent key [topic.1] key' ≠ []) :
        sent key' ≠ [] ∧ key'.1 ≠ key.1 := by
      rw [Function.update_of_ne ne] at held
      exact ⟨held, fun same => held (by rw [← alone key'.2, ← same])⟩
    constructor
    · exact joins.registers.valid served.rooms
    · intro key' stream₁ found empty
      rw [OrderedMap.find?_set] at found
      split at found
      · rename_i same
        rw [same, Function.update_self] at empty
        cases empty
      · rename_i ne
        rw [Function.update_of_ne ne] at empty
        exact served.ready key' stream₁ found empty
    · intro key' t mem
      rw [OrderedMap.find?_set]
      split
      · rename_i same
        rw [same, Function.update_self, List.mem_singleton] at mem
        exact ⟨stream', rfl, mem ▸ idle⟩
      · rename_i ne
        rw [Function.update_of_ne ne] at mem
        exact served.idle key' t mem
    · intro key' held
      rw [joins.delivery, if_neg valid, joins.room.delivery_eq]
      by_cases same : key' = key
      · rw [same, OrderedMap.find?_set_self]
      · obtain ⟨held, other⟩ := others same held
        rw [OrderedMap.find?_set_ne _ _ other]
        exact served.delivery key' held
    · intro key' t mem
      rw [joins.topicToRoom, joins.core, if_neg valid]
      by_cases same : key' = key
      · rw [same, Function.update_self, List.mem_singleton] at mem
        exact ⟨roomId, mem ▸ joins.room.registered valid, (plain.sub _ _ _ _ _).mpr (.inr ⟨rfl, by rw [same]⟩)⟩
      · rw [Function.update_of_ne same] at mem
        obtain ⟨room, known, isMember⟩ := served.joined key' t mem
        refine ⟨room, joins.room.registers.keeps known, (plain.sub _ _ _ _ _).mpr (.inl ?_)⟩
        rwa [joins.room.member_eq plain]
    · intro key' streamId held held'
      by_cases same : key' = key
      · by_contra ne
        have other : (key'.1, streamId) ≠ key := fun eq => ne (by rw [same, ← eq])
        exact (others other held').2 (by rw [same])
      · obtain ⟨held, other⟩ := others same held
        exact served.alone key' streamId held (others (fun eq => other (by rw [← eq])) held').1
  · rw [none] at mem
    cases mem

theorem Served.sent_nil_of_missing (served : Served member bridge sent) (missing : bridge.streams.find? key = none) :
    sent key = [] := by
  by_contra held
  obtain ⟨t, mem⟩ := List.exists_mem_of_ne_nil _ held
  obtain ⟨stream, found, -⟩ := served.idle key t mem
  rw [missing] at found
  cases found

theorem held_of_update_nil {key' : Key} (held : Function.update sent key [] key' ≠ []) : key' ≠ key ∧ sent key' ≠ [] := by
  by_cases same : key' = key
  · rw [same, Function.update_self] at held
    exact absurd rfl held
  · rw [Function.update_of_ne same] at held
    exact ⟨same, held⟩

theorem Served.closed (plain : PlainRooms core member) (served : Served member bridge sent) (key : Key) :
    Served member (finish core key.1 key.2 bridge) (Function.update sent key []) := by
  cases entry : bridge.streams.find? key with
  | none =>
    have same : finish core key.1 key.2 bridge = bridge := by simp only [finish, entry]
    rw [same, ← served.sent_nil_of_missing entry, Function.update_eq_self]
    exact served
  | some stream =>
    have closes : finish core key.1 key.2 bridge =
        { cleanupStream core key.1 key.2 stream.toParse bridge.toTables with
          streams := bridge.streams.erase key } := by simp only [finish, entry]
    obtain ⟨topics, delivery, -⟩ := cleanupStream_eq core key.1 key.2 stream.toParse bridge.toTables
    rw [closes]
    constructor
    · intro t r known
      rw [topics] at known
      exact served.rooms t r known
    · intro key' stream' found sent
      rw [OrderedMap.find?_erase] at found
      split at found
      · cases found
      · rename_i ne
        rw [Function.update_of_ne ne] at sent
        exact served.ready key' stream' found sent
    · intro key' t mem
      obtain ⟨ne, -⟩ := held_of_update_nil (List.ne_nil_of_mem mem)
      rw [Function.update_of_ne ne] at mem
      rw [OrderedMap.find?_erase, if_neg ne]
      exact served.idle key' t mem
    · intro key' held
      obtain ⟨ne, held⟩ := held_of_update_nil held
      have slot := served.delivery key' held
      rw [delivery]
      split
      · -- The slot that is freed is that of the closing stream.
        rename_i own
        rw [OrderedMap.find?_erase, if_neg, slot]
        intro same
        rw [same, own] at slot
        exact ne (Option.some.inj slot).symm
      · exact slot
    · intro key' t mem
      obtain ⟨ne, held⟩ := held_of_update_nil (List.ne_nil_of_mem mem)
      rw [Function.update_of_ne ne] at mem
      obtain ⟨room, known, isMember⟩ := served.joined key' t mem
      refine ⟨room, by rw [topics, known], (member_cleanupStream plain).mpr ⟨isMember, ?_⟩⟩
      -- A stream of the same connection has no subscription, so it claims nothing.
      rintro ⟨same, t', claim, -⟩
      have none : sent key = [] := by
        by_contra held'
        exact ne (Prod.ext same (served.alone key key'.2 held' (by rwa [← same])))
      rw [claim_eq_some, (served.ready key stream entry none).mode] at claim
      cases claim.1
    · intro key' streamId held held'
      exact served.alone key' streamId (held_of_update_nil held).2 (held_of_update_nil held').2

theorem Served.act (plain : PlainRooms core member)
    (alloc : ∀ k, ∃ roomId, (core.allocRoom k).1 = some roomId ∧ roomId ≠ sentinel) {session : Session K} {a : Act}
    (served : Served member session.bridge session.sent) (alone : SubscribesAlone session a) :
    Served member (session.act core a).bridge (session.act core a).sent := by
  cases a with
  | opened key => exact served.ignored key fun _ => rfl
  | sub key topic => exact served.subscribed plain alloc key alone topic
  | pub key topic payload =>
    by_cases none : session.sent key = []
    · exact served.published plain key none topic payload
    · exact served.ignored key fun empty => absurd empty none
  | fin key =>
    have received : Served member (receive core key.1 key.2 [] session.bridge).1 session.sent :=
      served.ignored key fun _ => rfl
    exact received.closed plain key
  | reset key => exact served.closed plain key

/-- In every run in which no connection subscribes while it has an open stream with a subscription, a publication that
    is handled is written to every stream on which another connection has subscribed to the topic. -/
theorem pub_reaches_subscriptions (plain : PlainRooms core member) (targets : TargetsMembers core member)
    (alloc : ∀ k, ∃ roomId, (core.allocRoom k).1 = some roomId ∧ roomId ≠ sentinel) (k : K) {acts : List Act}
    {session : Session K} (run : Run (Acts core) (Session.start k) acts session) (publisher : Key) (topic : Topic)
    (payload : Payload)
    (handled : .handlePub topic.1 payload.1 ∈
      (fanoutStreamCallback core (Act.pub publisher topic payload).event session.bridge).2)
    (subscriber : Key) (other : subscriber.1 ≠ publisher.1) (subscribed : topic.1 ∈ session.sent subscriber) :
    ∃ writes, (fanoutStreamCallback core (Act.pub publisher topic payload).event session.bridge).1.sent =
        session.bridge.sent ++ writes ∧ (subscriber.1, subscriber.2, payload.1) ∈ writes := by
  have served : Served member session.bridge session.sent := by
    refine run.invariant (P := fun session => Served member session.bridge session.sent) ?_ (.start k)
    rintro session l session' ⟨a, rfl, alone, rfl⟩ served
    exact served.act plain alloc alone
  simp only [Act.event, fanoutStreamCallback] at handled ⊢
  rcases served.kind publisher with ⟨-, ready⟩ | ⟨⟨t, mem⟩, idle⟩
  · obtain ⟨stream', -, eq⟩ := receive_pub core rfl ready topic payload
    obtain ⟨room, known, isMember⟩ := served.joined subscriber topic.1 subscribed
    have slot := served.delivery subscriber (List.ne_nil_of_mem subscribed)
    obtain ⟨conns, found, mem⟩ := targets session.bridge.core room publisher.1
    have published : handlePub core publisher.1 topic.1 payload.1 session.bridge.toTables =
        relay conns [payload.1] session.bridge.toTables := by
      simp only [handlePub, getOrCreateRoom, known, served.rooms _ _ known, if_false, found]
    rw [eq, published]
    refine ⟨_, rfl, List.mem_flatMap.mpr ⟨subscriber.1, (mem _).mpr ⟨isMember, other⟩, ?_⟩⟩
    simp [slot]
  · rw [receive_idle core rfl (idle t mem)] at handled
    cases handled

end Session

/-! ### One subscription, and two -/

/-- A topic of one letter. -/
def topicOf (name : Char) (line : newline ∉ ascii [name]) : Topic := ⟨ascii [name], line⟩

/-- Connection 1 subscribes to `t` on stream 0. -/
def firstSub : Act := .sub (1, 0) (topicOf 't' newline_notMem_t)

/-- And to `u` on stream 4. -/
def secondSub : Act := .sub (1, 4) (topicOf 'u' (by decide))

/-- Connection 2 publishes to `t`. -/
def onePub : Act := .pub (2, 0) (topicOf 't' newline_notMem_t) ⟨samplePayload, length_samplePayload⟩

theorem pub_reaches_subscription_one :
    let session := (Session.start {}).act loopCore firstSub
    ∃ writes, (fanoutStreamCallback loopCore onePub.event session.bridge).1.sent = session.bridge.sent ++ writes ∧
      (1, 0, samplePayload) ∈ writes :=
  pub_reaches_subscriptions plainRooms_loopCore targetsMembers_loopCore allocRoom_loopCore {}
    (.step ⟨firstSub, rfl, fun _ => rfl, rfl⟩ (.refl _)) (2, 0) (topicOf 't' (by decide))
    ⟨samplePayload, length_samplePayload⟩ (by decide +kernel) (1, 0) (by decide) (by decide +kernel)

/-- With a second subscription on another stream, what is published to the first topic is written to the second
    stream. -/
theorem pub_misses_subscription :
    let session := ((Session.start {}).act loopCore firstSub).act loopCore secondSub
    session.sent (1, 0) = [ascii ['t']] ∧ session.sent (1, 4) = [ascii ['u']] ∧ session.bridge.sent = [] ∧
      (fanoutStreamCallback loopCore onePub.event session.bridge).1.sent = [(1, 4, samplePayload)] := by
  decide +kernel

end WeftWarp.Fanout
