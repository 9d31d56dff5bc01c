import WeftWarp.Theorems.FanoutServer
import WeftWarp.Theorems.FanoutHandlers
import WeftWarp.Theorems.FanoutCore

/-! What is left of a stream that is finished or reset.

    `cleanupStream` goes by the flags and the topic that the last header left on the stream. They tell what the stream
    did only if its headers came in a certain order and no other stream of the connection was given the same topic or
    zone; `Orderly` is that condition on every header. -/

namespace WeftWarp.Fanout

variable {K : Type} {core : Core K}

/-- The topic that a stream will leave the room of when it is closed. -/
def Parse.claim (stream : Parse) : Option Bytes :=
  if stream.headerParsed && !stream.isPub && !stream.isZonePub then some stream.topic else none

namespace OpenStream

/-- The stream has subscribed to the topic. -/
def Subscribed (s : OpenStream) (topic : Bytes) : Prop := Subscribes s.made topic

/-- The stream has published to a zone. -/
def Published (s : OpenStream) : Prop := ∃ m payload, .handleZonePub m payload ∈ s.made

end OpenStream

/-- The condition on a header. Unless it is a `PUB`, no other open stream of the connection claims its topic. A `ZPB`
    comes only when no other open stream of the connection has a zone. A subscription comes only on a stream without
    a zone, and one to a sketch only on a stream without publications. -/
structure Orderly (_ : Tables K) (parses : Key → Option Parse) (key : Key) (verb topic : Bytes) : Prop where
  topicFree : verb ≠ pubVerb → ∀ streamId stream, streamId ≠ key.2 → parses (key.1, streamId) = some stream →
    stream.claim ≠ some topic
  zoneFree : verb = zpbVerb → ∀ streamId stream, streamId ≠ key.2 → parses (key.1, streamId) = some stream →
    stream.isZonePub = false
  noZone : verb = subVerb ∨ verb = skbVerb → ∀ stream, parses key = some stream → stream.isZonePub = false
  noPub : verb = skbVerb → ∀ stream, parses key = some stream → stream.isPub = false

theorem claim_eq_some {stream : Parse} {topic : Bytes} : stream.claim = some topic ↔
    stream.headerParsed = true ∧ stream.isPub = false ∧ stream.isZonePub = false ∧ stream.topic = topic := by
  rw [Parse.claim]
  split
  · simp_all
  · simp_all

/-! ### What a turn does to the parser -/

section Turns
variable {key : Key} {state : Tables K} {stream : Parse} {used : Bytes} {out : List (Option Call)}
  {s' : Tables K × Parse} {t : Bytes}

/-- A stream that claims a topic goes on claiming it. -/
theorem Turn.keeps_claim (turn : Turn core key.1 key.2 (state, stream) used out s') (claim : stream.claim = some t) :
    s'.2.claim = some t := by
  obtain ⟨mode, noPub, noZone, -⟩ := claim_eq_some.mp claim
  cases turn with
  | bare mode' => simp [mode] at mode'
  | header mode' => simp [mode] at mode'
  | frame => exact claim
  | pub _ _ pub => simp [noPub] at pub
  | zone _ _ _ zone => simp [noZone] at zone

theorem Turn.claims (turn : Turn core key.1 key.2 (state, stream) used out s') (claim : s'.2.claim = some t) :
    stream.claim = some t ∨ stream.headerParsed = false ∧
      ∃ verb, verb ≠ pubVerb ∧ used = verb ++ space :: t ++ [newline] ∧ space ∉ verb := by
  obtain ⟨mode', noPub, -, topic'⟩ := claim_eq_some.mp claim
  cases turn with
  | bare => exact .inl claim
  | @header _ _ verb topic _ _ mode noSpace _ header =>
    refine .inr ⟨mode, verb, ?_, ?_, noSpace⟩
    · rintro rfl
      cases header with
      | pub => cases noPub
      | stop _ stops => exact stops.2.1 rfl
    · have same : s'.2.topic = topic := by
        cases header with
        | skb =>
          obtain ⟨roomId, joined⟩ := handleSketchSub_stream core key.1 key.2
            { stream with topic := topic, headerParsed := true, isSketch := true } state
          rw [joined]
        | _ => rfl
      rw [← topic', same]
  | frame => exact .inl claim
  | pub => cases mode'
  | zone => cases mode'

theorem Turn.keeps_zone (turn : Turn core key.1 key.2 (state, stream) used out s') (zone : stream.isZonePub = true) :
    s'.2.isZonePub = true := by
  cases turn with
  | @header _ _ _ topic _ _ _ _ _ header =>
    cases header with
    | skb =>
      obtain ⟨roomId, joined⟩ := handleSketchSub_stream core key.1 key.2
        { stream with topic := topic, headerParsed := true, isSketch := true } state
      rw [joined]
      exact zone
    | zpb => rfl
    | _ => exact zone
  | _ => exact zone

theorem Turn.zones (turn : Turn core key.1 key.2 (state, stream) used out s') (zone : s'.2.isZonePub = true) :
    stream.isZonePub = true ∨ stream.headerParsed = false ∧ ∃ topic, used = zpbVerb ++ space :: topic ++ [newline] := by
  cases turn with
  | @header _ _ _ topic _ _ mode _ _ header =>
    cases header with
    | skb =>
      obtain ⟨roomId, joined⟩ := handleSketchSub_stream core key.1 key.2
        { stream with topic := topic, headerParsed := true, isSketch := true } state
      rw [joined] at zone
      exact .inl zone
    | zpb => exact .inr ⟨mode, topic, rfl⟩
    | _ => exact .inl zone
  | _ => exact .inl zone

theorem Turn.publishes (turn : Turn core key.1 key.2 (state, stream) used out s') {m : Motion} {payload : Bytes}
    (call : .handleZonePub m payload ∈ out.reduceOption) : stream.isZonePub = true := by
  cases turn with
  | bare => simp at call
  | header _ _ _ header => cases header <;> simp at call
  | frame => simp at call
  | pub => simp at call
  | zone _ _ _ zone => exact zone

theorem Turn.subscribes (turn : Turn core key.1 key.2 (state, stream) used out s') {parses : Key → Option Parse}
    (own : parses key = some stream)
    (orderly : stream.headerParsed = false → ∀ verb topic, used = verb ++ space :: topic ++ [newline] → space ∉ verb →
      Orderly state parses key verb topic)
    (calls : Subscribes out.reduceOption t) : s'.2.claim = some t := by
  rw [claim_eq_some]
  cases turn with
  | bare => simp [Subscribes] at calls
  | @header _ _ _ topic _ _ mode noSpace _ header =>
    have order := orderly mode _ topic rfl noSpace
    cases header with
    | sub =>
      have same : t = topic := by simpa [Subscribes] using calls
      exact ⟨rfl, rfl, order.noZone (.inl rfl) stream own, same.symm⟩
    | pub => simp [Subscribes] at calls
    | skb =>
      have same : t = topic := by simpa [Subscribes] using calls
      obtain ⟨roomId, joined⟩ := handleSketchSub_stream core key.1 key.2
        { stream with topic := topic, headerParsed := true, isSketch := true } state
      rw [joined]
      exact ⟨rfl, order.noPub rfl stream own, order.noZone (.inr rfl) stream own, same.symm⟩
    | zpb => simp [Subscribes] at calls
    | stop => simp [Subscribes] at calls
  | frame => simp [Subscribes] at calls
  | pub => simp [Subscribes] at calls
  | zone => simp [Subscribes] at calls

end Turns

/-! ### What a turn does to the core -/

section Core
variable {member : K → UInt64 → UInt64 → Prop} {entity : K → UInt64 → Prop} {taken : K → UInt64 → Prop}
variable {cnx : Cnx} {calls : List Call} {rooms : OrderedMap Bytes UInt64} {k k' : K}

theorem CoreTurn.members (plain : PlainRooms core member) (turn : CoreTurn core cnx calls rooms k k')
    {room conn : UInt64} (mem : member k' room conn) :
    member k room conn ∨ conn = cnx ∧ ∃ t, Subscribes calls t ∧ rooms.find? t = some room := by
  cases turn with
  | same => exact .inl mem
  | alloc => exact .inl (plain.allocRoom k ▸ mem)
  | @sub k' topic roomId alloc call found =>
    rcases (plain.sub _ _ _ _ _).mp mem with old | ⟨rfl, rfl⟩
    · rcases alloc with rfl | rfl
      · exact .inl old
      · exact .inl (plain.allocRoom k ▸ old)
    · exact .inr ⟨rfl, topic, call, found⟩
  | apply => exact .inl (plain.applyPacket k _ _ ▸ mem)
  | move => exact .inl (plain.entityMoveV k _ _ _ _ _ _ _ _ ▸ mem)

theorem CoreTurn.entities (plain : PlainEntities core entity) (turn : CoreTurn core cnx calls rooms k k')
    {conn : UInt64} (present : entity k' conn) :
    entity k conn ∨ conn = cnx ∧ ∃ m payload, .handleZonePub m payload ∈ calls := by
  cases turn with
  | same => exact .inl present
  | alloc => exact .inl (plain.allocRoom k ▸ present)
  | sub alloc =>
    rw [plain.sub] at present
    rcases alloc with rfl | rfl
    · exact .inl present
    · exact .inl (plain.allocRoom k ▸ present)
  | apply => exact .inl (plain.applyPacket k _ _ ▸ present)
  | move _ _ _ _ _ _ _ call =>
    rcases plain.entityMoveV _ _ _ _ _ _ _ _ _ _ present with old | same
    · exact .inl old
    · exact .inr ⟨same, _, _, call⟩

theorem CoreTurn.keeps_taken (fresh : FreshRooms core taken) (turn : CoreTurn core cnx calls rooms k k') {room : UInt64}
    (given : taken k room) : taken k' room := by
  cases turn with
  | same => exact given
  | alloc => exact fresh.allocRoom k room given
  | sub alloc =>
    rw [fresh.sub]
    rcases alloc with rfl | rfl
    · exact given
    · exact fresh.allocRoom k room given
  | apply => rwa [fresh.applyPacket]
  | move => rwa [fresh.entityMoveV]

theorem Registers.distinct (fresh : FreshRooms core taken) {state state' : Tables K} (reg : Registers core state state')
    (keeps : ∀ room, taken state.core room → taken state'.core room)
    (given : ∀ t r, state.topicToRoom.find? t = some r → taken state.core r)
    (distinct : ∀ t t' r, state.topicToRoom.find? t = some r → state.topicToRoom.find? t' = some r → t = t') :
    (∀ t r, state'.topicToRoom.find? t = some r → taken state'.core r) ∧
      ∀ t t' r, state'.topicToRoom.find? t = some r → state'.topicToRoom.find? t' = some r → t = t' := by
  rcases reg with same | ⟨topic, roomId, -, alloc, valid, set, core'⟩
  · rw [same]
    exact ⟨fun t r known => keeps r (given t r known), distinct⟩
  · obtain ⟨unused, now⟩ := fresh.fresh _ _ alloc valid
    have now' : taken state'.core roomId := by
      rcases core' with eq | ⟨room, conn, eq⟩
      · rwa [eq]
      · rwa [eq, fresh.sub]
    have cases' (t : Bytes) (r : UInt64) (known : state'.topicToRoom.find? t = some r) :
        t = topic ∧ r = roomId ∨ state.topicToRoom.find? t = some r := by
      rw [set, OrderedMap.find?_set] at known
      split at known
      · cases known
        exact .inl ⟨‹_›, rfl⟩
      · exact .inr known
    refine ⟨fun t r known => ?_, fun t t' r known known' => ?_⟩
    · rcases cases' t r known with ⟨-, rfl⟩ | old
      · exact now'
      · exact keeps r (given t r old)
    · rcases cases' t r known with ⟨rfl, rfl⟩ | old <;> rcases cases' t' r known' with ⟨rfl, same⟩ | old'
      · rfl
      · exact absurd (given t' r old') unused
      · exact absurd (given t r old) (same ▸ unused)
      · exact distinct t t' r old old'

end Core
/-! ### What cleaning up does -/

section Cleanup
variable {member : K → UInt64 → UInt64 → Prop} {entity : K → UInt64 → Prop} {taken : K → UInt64 → Prop}
variable {cnx : Cnx} {streamId : StreamId} {stream : Parse} {state : Tables K}

/-- The room of the claimed topic is left, or the entity is removed. -/
theorem cleanupStream_core (core : Core K) (cnx : Cnx) (streamId : StreamId) (stream : Parse) (state : Tables K) :
    stream.isZonePub = true ∧ (cleanupStream core cnx streamId stream state).core = core.entityRemove cnx state.core ∨
    stream.isZonePub = false ∧
      ((∃ t room, stream.claim = some t ∧ state.topicToRoom.find? t = some room ∧
          (cleanupStream core cnx streamId stream state).core = core.unsub room cnx state.core) ∨
        (∀ t, stream.claim = some t → state.topicToRoom.find? t = none) ∧
          (cleanupStream core cnx streamId stream state).core = state.core) := by
  rw [(cleanupStream_eq core cnx streamId stream state).2.2]
  cases zone : stream.isZonePub with
  | true => exact .inl ⟨rfl, if_pos rfl⟩
  | false =>
    refine .inr ⟨rfl, ?_⟩
    rw [if_neg (by decide), Parse.claim, zone, Bool.not_false, Bool.and_true]
    by_cases left : (stream.headerParsed && !stream.isPub) = true
    · rw [if_pos left, if_pos left]
      cases known : state.topicToRoom.find? stream.topic with
      | none => exact .inr ⟨fun t same => by cases same; exact known, rfl⟩
      | some room => exact .inl ⟨stream.topic, room, rfl, known, rfl⟩
    · rw [if_neg left, if_neg left]
      exact .inr ⟨fun t same => (nomatch same), rfl⟩

theorem member_cleanupStream (plain : PlainRooms core member) {room conn : UInt64} :
    member (cleanupStream core cnx streamId stream state).core room conn ↔ member state.core room conn ∧
      ¬ (conn = cnx ∧ ∃ t, stream.claim = some t ∧ state.topicToRoom.find? t = some room) := by
  rcases cleanupStream_core core cnx streamId stream state with
    ⟨zone, eq⟩ | ⟨noZone, ⟨t, room', claim, known, eq⟩ | ⟨unknown, eq⟩⟩
  · have noClaim : stream.claim = none := by simp [Parse.claim, zone]
    rw [eq, plain.entityRemove]
    simp [noClaim]
  · rw [eq, plain.unsub]
    simp only [claim, Option.some.injEq, exists_eq_left', known]
    rw [and_comm (a := conn = cnx), eq_comm (a := room)]
  · rw [eq]
    refine ⟨fun mem => ⟨mem, ?_⟩, And.left⟩
    rintro ⟨-, t, claim, known⟩
    rw [unknown t claim] at known
    cases known

theorem entity_cleanupStream (plain : PlainEntities core entity) {conn : UInt64} :
    entity (cleanupStream core cnx streamId stream state).core conn ↔
      entity state.core conn ∧ ¬ (conn = cnx ∧ stream.isZonePub = true) := by
  rcases cleanupStream_core core cnx streamId stream state with
    ⟨zone, eq⟩ | ⟨noZone, ⟨t, room', claim, known, eq⟩ | ⟨unknown, eq⟩⟩
  · rw [eq, plain.entityRemove]
    simp [zone]
  · rw [eq, plain.unsub]
    simp [noZone]
  · rw [eq]
    simp [noZone]

theorem taken_cleanupStream (fresh : FreshRooms core taken) {room : UInt64} :
    taken (cleanupStream core cnx streamId stream state).core room ↔ taken state.core room := by
  rcases cleanupStream_core core cnx streamId stream state with
    ⟨-, eq⟩ | ⟨-, ⟨t, room', -, -, eq⟩ | ⟨-, eq⟩⟩
  · rw [eq, fresh.entityRemove]
  · rw [eq, fresh.unsub]
  · rw [eq]

theorem delivery_cleanupStream :
    (cleanupStream core cnx streamId stream state).delivery.find? cnx ≠ some (cnx, streamId) := by
  rw [(cleanupStream_eq core cnx streamId stream state).2.1]
  split
  · rw [OrderedMap.find?_erase, if_pos rfl]
    exact fun same => by cases same
  · assumption

end Cleanup

/-! ### Whole runs -/

section Runs
variable {member : K → UInt64 → UInt64 → Prop} {entity : K → UInt64 → Prop} {taken : K → UInt64 → Prop}

/-- At most one stream of a connection has the property. -/
def Sole (p : OpenStream → Prop) (streams : Key → Option OpenStream) : Prop :=
  ∀ key s streamId s', streams key = some s → streams (key.1, streamId) = some s' → p s → p s' → streamId = key.2

variable {key : Key} {s : OpenStream}

theorem Sole.update {p : OpenStream → Prop} {streams : Key → Option OpenStream} (sole : Sole p streams)
    (alone : ∀ streamId s', streamId ≠ key.2 → streams (key.1, streamId) = some s' → p s → ¬p s') :
    Sole p (Function.update streams key (some s)) := by
  intro key' s₁ streamId s₂ found₁ found₂ p₁ p₂
  rcases update_some_eq_some.mp found₁ with ⟨rfl, rfl⟩ | ⟨ne₁, old₁⟩ <;>
    rcases update_some_eq_some.mp found₂ with ⟨same, rfl⟩ | ⟨ne₂, old₂⟩
  · exact congrArg Prod.snd same
  · exact absurd p₂ (alone streamId s₂ (fun same => ne₂ (by rw [same])) old₂ p₁)
  · cases same
    exact absurd p₁ (alone key'.2 s₁ (fun same => ne₁ (Prod.ext rfl same)) old₁ p₂)
  · exact sole key' s₁ streamId s₂ old₁ old₂ p₁ p₂

/-- Every membership and every entity goes back to an open stream, which claims the topic or has the zone, and no two
    streams of a connection claim the same. -/
structure Tidy (member : K → UInt64 → UInt64 → Prop) (entity : K → UInt64 → Prop) (taken : K → UInt64 → Prop)
    (v : View K) : Prop where
  given : ∀ t r, v.tables.topicToRoom.find? t = some r → taken v.tables.core r
  distinct : ∀ t t' r, v.tables.topicToRoom.find? t = some r → v.tables.topicToRoom.find? t' = some r → t = t'
  members : ∀ room conn, member v.tables.core room conn → ∃ streamId s t, v.streams (conn, streamId) = some s ∧
    s.Subscribed t ∧ v.tables.topicToRoom.find? t = some room
  entities : ∀ conn, entity v.tables.core conn → ∃ streamId s, v.streams (conn, streamId) = some s ∧ s.Published
  claims : ∀ key s t, v.streams key = some s → s.Subscribed t → s.parse.claim = some t
  zones : ∀ key s, v.streams key = some s → s.Published → s.parse.isZonePub = true
  oneClaim : ∀ key s streamId s' t, v.streams key = some s → v.streams (key.1, streamId) = some s' →
    s.parse.claim = some t → s'.parse.claim = some t → streamId = key.2
  oneZone : ∀ key s streamId s', v.streams key = some s → v.streams (key.1, streamId) = some s' →
    s.parse.isZonePub = true → s'.parse.isZonePub = true → streamId = key.2

theorem Tidy.start {k : K} (noMember : ∀ room conn, ¬ member k room conn) (noEntity : ∀ conn, ¬ entity k conn) :
    Tidy member entity taken (Server.start k).view where
  given t r known := by cases known
  distinct t t' r known := by cases known
  members room conn mem := absurd mem (noMember room conn)
  entities conn present := absurd present (noEntity conn)
  claims key s t found := by cases found
  zones key s found := by cases found
  oneClaim key s streamId s' t found := by cases found
  oneZone key s streamId s' found := by cases found

variable {v : View K}

theorem Tidy.opened (tidy : Tidy member entity taken v) (fresh : v.streams key = none) :
    Tidy member entity taken { v with streams := Function.update v.streams key (some {}) } := by
  have still {key' : Key} {s : OpenStream} (found : v.streams key' = some s) :
      Function.update v.streams key (some {}) key' = some s := by
    refine update_some_eq_some.mpr (.inr ⟨?_, found⟩)
    rintro rfl
    rw [fresh] at found
    cases found
  refine ⟨tidy.given, tidy.distinct, ?_, ?_, ?_, ?_, ?_, ?_⟩
  · intro room conn mem
    obtain ⟨streamId, s, t, found, sub, known⟩ := tidy.members room conn mem
    exact ⟨streamId, s, t, still found, sub, known⟩
  · intro conn present
    obtain ⟨streamId, s, found, pub⟩ := tidy.entities conn present
    exact ⟨streamId, s, still found, pub⟩
  · intro key' s t found sub
    rcases update_some_eq_some.mp found with ⟨-, rfl⟩ | ⟨-, found⟩
    · rcases sub with mem | mem <;> cases mem
    · exact tidy.claims key' s t found sub
  · intro key' s found pub
    rcases update_some_eq_some.mp found with ⟨-, rfl⟩ | ⟨-, found⟩
    · obtain ⟨m, payload, mem⟩ := pub
      cases mem
    · exact tidy.zones key' s found pub
  · intro key' s streamId s' t
    have sole : Sole (·.parse.claim = some t) v.streams := fun key s streamId s' => tidy.oneClaim key s streamId s' t
    refine sole.update (fun streamId s' _ _ claim => ?_) key' s streamId s'
    cases claim
  · have sole : Sole (·.parse.isZonePub = true) v.streams := tidy.oneZone
    refine sole.update fun streamId s' _ _ zone => ?_
    cases zone

theorem subscribes_append {calls calls' : List Call} {t : Bytes} :
    Subscribes (calls ++ calls') t ↔ Subscribes calls t ∨ Subscribes calls' t := by
  simp only [Subscribes, List.mem_append]
  exact or_or_or_comm

/-- Streams go on as before, with more calls. -/
theorem goes_on {streams : Key → Option OpenStream} {key' : Key} {s' : OpenStream} (found : streams key = some s)
    (parse : Parse) (calls : List Call) (found' : streams key' = some s') :
    ∃ s₁, Function.update streams key (some ⟨parse, s.made ++ calls⟩) key' = some s₁ ∧
      (∀ t, s'.Subscribed t → s₁.Subscribed t) ∧ (s'.Published → s₁.Published) := by
  by_cases same : key' = key
  · subst same
    rw [found] at found'
    cases found'
    refine ⟨_, Function.update_self .., fun t sub => subscribes_append.mpr (.inl sub), ?_⟩
    rintro ⟨m, payload, mem⟩
    exact ⟨m, payload, List.mem_append_left _ mem⟩
  · exact ⟨s', by rw [Function.update_of_ne same, found'], fun _ => id, id⟩

theorem Tidy.turned (rooms : PlainRooms core member) (zones : PlainEntities core entity)
    (fresh : FreshRooms core taken) {used : Bytes} {out : List (Option Call)} {tables : Tables K} {parse : Parse}
    (tidy : Tidy member entity taken v) (found : v.streams key = some s)
    (turn : Turn core key.1 key.2 (v.tables, s.parse) used out (tables, parse))
    (orderly : s.parse.headerParsed = false → ∀ verb topic, used = verb ++ space :: topic ++ [newline] → space ∉ verb →
      Orderly v.tables v.parses key verb topic) :
    Tidy member entity taken
      ⟨tables, Function.update v.streams key (some ⟨parse, s.made ++ out.reduceOption⟩)⟩ := by
  have own : v.parses key = some s.parse := by rw [View.parses, found, Option.map_some]
  have parses {key' : Key} {s' : OpenStream} (found' : v.streams key' = some s') : v.parses key' = some s'.parse := by
    rw [View.parses, found', Option.map_some]
  have work := turn.coreTurn
  -- The stream that took the turn claims nothing that another stream of the connection claims.
  have claimsAlone {streamId : StreamId} {s' : OpenStream} {t : Bytes} (ne : streamId ≠ key.2)
      (found' : v.streams (key.1, streamId) = some s') (claim : parse.claim = some t)
      (claim' : s'.parse.claim = some t) : False := by
    rcases turn.claims claim with old | ⟨mode, verb, notPub, header, noSpace⟩
    · exact ne (tidy.oneClaim key s streamId s' t found found' old claim')
    · exact (orderly mode verb t header noSpace).topicFree notPub streamId _ ne (parses found') claim'
  have zonesAlone {streamId : StreamId} {s' : OpenStream} (ne : streamId ≠ key.2)
      (found' : v.streams (key.1, streamId) = some s') (zone : parse.isZonePub = true)
      (zone' : s'.parse.isZonePub = true) : False := by
    rcases turn.zones zone with old | ⟨mode, topic, header⟩
    · exact ne (tidy.oneZone key s streamId s' found found' old zone')
    · have none := (orderly mode zpbVerb topic header (by decide)).zoneFree rfl streamId _ ne (parses found')
      rw [zone'] at none
      cases none
  obtain ⟨given, distinct⟩ := turn.registers.distinct fresh (fun _ => work.keeps_taken fresh) tidy.given tidy.distinct
  refine ⟨given, distinct, ?_, ?_, ?_, ?_, ?_, ?_⟩
  · intro room conn mem
    rcases work.members rooms mem with old | ⟨rfl, t, sub, known⟩
    · obtain ⟨streamId, s', t, found', sub, known⟩ := tidy.members room conn old
      obtain ⟨s₁, found₁, subs, -⟩ := goes_on found parse out.reduceOption found'
      exact ⟨streamId, s₁, t, found₁, subs t sub, turn.registers.keeps known⟩
    · exact ⟨key.2, _, t, Function.update_self .., subscribes_append.mpr (.inr sub), known⟩
  · intro conn present
    rcases work.entities zones present with old | ⟨rfl, m, payload, mem⟩
    · obtain ⟨streamId, s', found', pub⟩ := tidy.entities conn old
      obtain ⟨s₁, found₁, -, pubs⟩ := goes_on found parse out.reduceOption found'
      exact ⟨streamId, s₁, found₁, pubs pub⟩
    · exact ⟨key.2, _, Function.update_self .., m, payload, List.mem_append_right _ mem⟩
  · intro key' s' t found' sub
    rcases update_some_eq_some.mp found' with ⟨-, rfl⟩ | ⟨-, found'⟩
    · rcases subscribes_append.mp sub with old | new
      · exact turn.keeps_claim (tidy.claims key s t found old)
      · exact turn.subscribes own orderly new
    · exact tidy.claims key' s' t found' sub
  · intro key' s' found' pub
    rcases update_some_eq_some.mp found' with ⟨-, rfl⟩ | ⟨-, found'⟩
    · obtain ⟨m, payload, mem⟩ := pub
      rcases List.mem_append.mp mem with old | new
      · exact turn.keeps_zone (tidy.zones key s found ⟨m, payload, old⟩)
      · exact turn.keeps_zone (turn.publishes new)
    · exact tidy.zones key' s' found' pub
  · intro key' s₁ streamId s₂ t
    have sole : Sole (·.parse.claim = some t) v.streams := fun key s streamId s' => tidy.oneClaim key s streamId s' t
    exact sole.update (fun _ _ => claimsAlone) key' s₁ streamId s₂
  · have sole : Sole (·.parse.isZonePub = true) v.streams := tidy.oneZone
    exact sole.update fun _ _ => zonesAlone

theorem Tidy.finished (rooms : PlainRooms core member) (zones : PlainEntities core entity)
    (fresh : FreshRooms core taken) (tidy : Tidy member entity taken v) (found : v.streams key = some s) :
    Tidy member entity taken
      ⟨cleanupStream core key.1 key.2 s.parse v.tables, Function.update v.streams key none⟩ := by
  have topics := (cleanupStream_eq core key.1 key.2 s.parse v.tables).1
  have other {key' : Key} {s' : OpenStream} (found' : v.streams key' = some s') (ne : key' ≠ key) :
      Function.update v.streams key none key' = some s' := update_none_eq_some.mpr ⟨ne, found'⟩
  refine ⟨?_, ?_, ?_, ?_, ?_, ?_, ?_, ?_⟩
  · intro t r known
    rw [topics] at known
    exact (taken_cleanupStream fresh).mpr (tidy.given t r known)
  · intro t t' r known known'
    rw [topics] at known known'
    exact tidy.distinct t t' r known known'
  · intro room conn mem
    obtain ⟨mem, kept⟩ := (member_cleanupStream rooms).mp mem
    obtain ⟨streamId, s', t, found', sub, known⟩ := tidy.members room conn mem
    refine ⟨streamId, s', t, other found' ?_, sub, by rw [topics, known]⟩
    -- The membership of the closing stream itself is gone.
    rintro rfl
    rw [found] at found'
    cases found'
    exact kept ⟨rfl, t, tidy.claims _ _ t found sub, known⟩
  · intro conn present
    obtain ⟨present, kept⟩ := (entity_cleanupStream zones).mp present
    obtain ⟨streamId, s', found', pub⟩ := tidy.entities conn present
    refine ⟨streamId, s', other found' ?_, pub⟩
    rintro rfl
    rw [found] at found'
    cases found'
    exact kept ⟨rfl, tidy.zones _ _ found pub⟩
  · intro key' s' t found' sub
    exact tidy.claims key' s' t (update_none_eq_some.mp found').2 sub
  · intro key' s' found' pub
    exact tidy.zones key' s' (update_none_eq_some.mp found').2 pub
  · intro key' s₁ streamId s₂ t found₁ found₂ claim₁ claim₂
    exact tidy.oneClaim key' s₁ streamId s₂ t (update_none_eq_some.mp found₁).2 (update_none_eq_some.mp found₂).2 claim₁
      claim₂
  · intro key' s₁ streamId s₂ found₁ found₂ zone₁ zone₂
    exact tidy.oneZone key' s₁ streamId s₂ (update_none_eq_some.mp found₁).2 (update_none_eq_some.mp found₂).2 zone₁
      zone₂

theorem Tidy.move (rooms : PlainRooms core member) (zones : PlainEntities core entity) (fresh : FreshRooms core taken)
    {v' : View K} (move : Move core Orderly v v') (tidy : Tidy member entity taken v) :
    Tidy member entity taken v' := by
  cases move with
  | opened closed => exact tidy.opened closed
  | turned found turn heeds => exact tidy.turned rooms zones fresh found turn heeds
  | finished found => exact tidy.finished rooms zones fresh found

/-- Closing a stream undoes what the stream did, and nothing else: memberships go only if this stream subscribed and no
    other open stream of the connection did, the entity goes only if this stream published it, and what the stream
    registered and no other open stream of the connection uses is gone. -/
structure Undone (member : K → UInt64 → UInt64 → Prop) (entity : K → UInt64 → Prop) (v : View K) (key : Key)
    (s : OpenStream) (v' : View K) : Prop where
  memberships : ∀ room conn, member v.tables.core room conn → ¬ member v'.tables.core room conn →
    conn = key.1 ∧ ∃ t, v.tables.topicToRoom.find? t = some room ∧ s.Subscribed t ∧
      ∀ streamId other, streamId ≠ key.2 → v.streams (key.1, streamId) = some other → ¬ other.Subscribed t
  entities : ∀ conn, entity v.tables.core conn → ¬ entity v'.tables.core conn → conn = key.1 ∧ s.Published
  leavesRooms : ∀ t room, s.Subscribed t → v'.tables.topicToRoom.find? t = some room →
    (∀ streamId other, streamId ≠ key.2 → v.streams (key.1, streamId) = some other → ¬ other.Subscribed t) →
    ¬ member v'.tables.core room key.1
  leavesZone : s.Published →
    (∀ streamId other, streamId ≠ key.2 → v.streams (key.1, streamId) = some other → ¬ other.Published) →
    ¬ entity v'.tables.core key.1
  leavesDelivery : v'.tables.delivery.find? key.1 ≠ some key
  forgotten : v'.streams key = none
  addsNoMember : ∀ room conn, member v'.tables.core room conn → member v.tables.core room conn
  addsNoEntity : ∀ conn, entity v'.tables.core conn → entity v.tables.core conn
  otherDeliveries : ∀ conn, conn ≠ key.1 → v'.tables.delivery.find? conn = v.tables.delivery.find? conn

theorem Tidy.undone (rooms : PlainRooms core member) (zones : PlainEntities core entity)
    (tidy : Tidy member entity taken v) (found : v.streams key = some s) :
    Undone member entity v key s
      ⟨cleanupStream core key.1 key.2 s.parse v.tables, Function.update v.streams key none⟩ where
  memberships room conn mem gone := by
    rw [member_cleanupStream rooms] at gone
    obtain ⟨rfl, t, claim, known⟩ := not_not.mp fun kept => gone ⟨mem, kept⟩
    obtain ⟨streamId, s', t', found', sub, known'⟩ := tidy.members room key.1 mem
    obtain rfl := tidy.distinct t t' room known known'
    obtain rfl := tidy.oneClaim key s streamId s' t found found' claim (tidy.claims _ _ t found' sub)
    rw [found] at found'
    cases found'
    refine ⟨rfl, t, known, sub, fun streamId other ne found' sub' => ne ?_⟩
    exact tidy.oneClaim key s streamId other t found found' claim (tidy.claims _ _ t found' sub')
  entities conn present gone := by
    rw [entity_cleanupStream zones] at gone
    obtain ⟨rfl, zone⟩ := not_not.mp fun kept => gone ⟨present, kept⟩
    obtain ⟨streamId, s', found', pub⟩ := tidy.entities key.1 present
    obtain rfl := tidy.oneZone key s streamId s' found found' zone (tidy.zones _ _ found' pub)
    rw [found] at found'
    cases found'
    exact ⟨rfl, pub⟩
  leavesRooms t room sub known _ mem := by
    rw [(cleanupStream_eq core key.1 key.2 s.parse v.tables).1] at known
    exact ((member_cleanupStream rooms).mp mem).2 ⟨rfl, t, tidy.claims key s t found sub, known⟩
  leavesZone pub _ present := ((entity_cleanupStream zones).mp present).2 ⟨rfl, tidy.zones key s found pub⟩
  leavesDelivery := delivery_cleanupStream
  forgotten := Function.update_self ..
  addsNoMember room conn mem := ((member_cleanupStream rooms).mp mem).1
  addsNoEntity conn present := ((entity_cleanupStream zones).mp present).1
  otherDeliveries conn other := by
    rw [(cleanupStream_eq core key.1 key.2 s.parse v.tables).2.1]
    split
    · rw [OrderedMap.find?_erase, if_neg other]
    · rfl

/-- In every run whose headers come in order, finishing or resetting an open stream undoes what it did. -/
theorem finish_undone (rooms : PlainRooms core member) (zones : PlainEntities core entity)
    (fresh : FreshRooms core taken) {k : K} (noMember : ∀ room conn, ¬ member k room conn)
    (noEntity : ∀ conn, ¬ entity k conn) {events : List Event} {server : Server K}
    (run : Run (Serves core Orderly) (.start k) events server) (cnx : Cnx) (streamId : StreamId) (s : OpenStream)
    (found : server.view.streams (cnx, streamId) = some s) :
    Undone member entity server.view (cnx, streamId) s
      (Server.view ⟨finish core cnx streamId server.bridge, server.made⟩) := by
  have tidy : Tidy member entity taken server.view :=
    holds_of_run (fun _ _ => Tidy.move rooms zones fresh) run (.start noMember noEntity)
  cases entry : server.bridge.streams.find? (cnx, streamId) with
  | none => simp [Server.view, entry] at found
  | some stream =>
    have same : s.parse = stream.toParse := by
      simp only [Server.view, entry, Option.map_some, Option.some.injEq] at found
      rw [← found]
    rw [view_finish entry, ← same]
    exact tidy.undone rooms zones found

end Runs

/-! ### Headers in order and out of order -/

theorem heedsChunk_first_sub : HeedsChunk listCore Orderly 1 0 (subHeader 't') (.start {}) := by
  refine And.intro ?_ trivial
  intro _ verb topic rest _ _
  have alone {streamId : StreamId} {stream : Parse} (ne : streamId ≠ 0)
      (found : Function.update (Server.start {} : Server Lists).view.parses (1, 0) (some {}) (1, streamId) = some stream) :
      False := by
    rcases update_some_eq_some.mp found with ⟨same, -⟩ | ⟨-, found⟩
    · exact ne (congrArg Prod.snd same)
    · cases found
  refine ⟨fun _ _ _ ne found => (alone ne found).elim, fun _ _ _ ne found => (alone ne found).elim, ?_, ?_⟩
  · intro _ stream found
    cases (Function.update_self ..).symm.trans found
    rfl
  · intro _ stream found
    cases (Function.update_self ..).symm.trans found
    rfl

/-- A stream subscribes and is closed: its connection is no longer in the room. -/
theorem finish_undone_sub :
    let server := serve listCore (.streamData 1 0 (subHeader 't')) (.start {})
    (0, 1) ∈ server.bridge.core.members ∧
      Undone Lists.Member Lists.Entity server.view (1, 0)
        ⟨{ headerParsed := true, topic := ascii ['t'] }, [.handleSub (ascii ['t'])]⟩
        (Server.view ⟨finish listCore 1 0 server.bridge, server.made⟩) :=
  ⟨by decide +kernel, finish_undone plainRooms_listCore plainEntities_listCore freshRooms_listCore
    (fun _ _ => List.not_mem_nil) (fun _ => List.not_mem_nil)
    (.step ⟨.streamData 1 0 (subHeader 't'), rfl, heedsChunk_first_sub, rfl⟩ (.refl _)) 1 0 _ rfl⟩

/-- A header with a verb that there is not. -/
def unknownHeader (topic : Char) : Bytes := ascii ['X', 'Y', 'Z', ' ', topic, '\n']

/-- A stream with an unknown verb takes the connection out of the room that another stream of it subscribed to. -/
theorem reset_unsubscribes_other :
    let server := serve listCore (.streamData 1 4 (unknownHeader 't'))
      (serve listCore (.streamData 1 0 (subHeader 't')) (.start {}))
    let server' := serve listCore (.streamReset 1 4) server
    (0, 1) ∈ server.bridge.core.members ∧ server.calls (1, 0) = [.handleSub (ascii ['t'])] ∧ server.calls (1, 4) = [] ∧
      (0, 1) ∉ server'.bridge.core.members ∧ (server'.bridge.streams.find? (1, 0)).isSome := by
  decide +kernel

end WeftWarp.Fanout
