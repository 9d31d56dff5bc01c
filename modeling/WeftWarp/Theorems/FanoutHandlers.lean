import WeftWarp.Theorems.FanoutRounds

/-! What the handlers do to the tables. -/

namespace WeftWarp.Fanout

variable {K : Type} {core : Core K} {cnx : Cnx} {streamId : StreamId}

/-! ### Rooms -/

/-- A room is there, or is allocated and registered, or allocation fails. -/
inductive RoomFor (core : Core K) (topic : Bytes) (state : Tables K) : UInt64 → Tables K → Prop where
  | found {roomId : UInt64} (known : state.topicToRoom.find? topic = some roomId) : RoomFor core topic state roomId state
  | created {roomId : UInt64} (unknown : state.topicToRoom.find? topic = none)
      (alloc : (core.allocRoom state.core).1 = some roomId) (valid : roomId ≠ sentinel) :
      RoomFor core topic state roomId
        { state with topicToRoom := state.topicToRoom.set topic roomId, core := (core.allocRoom state.core).2 }
  | failed (unknown : state.topicToRoom.find? topic = none)
      (alloc : ∀ roomId, (core.allocRoom state.core).1 = some roomId → roomId = sentinel) :
      RoomFor core topic state sentinel { state with core := (core.allocRoom state.core).2 }

theorem roomFor (core : Core K) (topic : Bytes) (state : Tables K) :
    RoomFor core topic state (getOrCreateRoom core topic state).1 (getOrCreateRoom core topic state).2 := by
  rw [getOrCreateRoom]
  cases known : state.topicToRoom.find? topic with
  | some roomId => exact .found known
  | none =>
    simp only
    by_cases valid : (core.allocRoom state.core).1.getD sentinel ≠ sentinel
    · rw [if_pos valid]
      refine .created known ?_ valid
      cases alloc : (core.allocRoom state.core).1 with
      | none =>
        rw [alloc] at valid
        exact absurd rfl valid
      | some roomId => rfl
    · rw [if_neg valid, not_not.mp valid]
      refine .failed known fun roomId alloc => ?_
      rw [alloc] at valid
      exact not_not.mp valid

section Rooms
variable {topic t : Bytes} {state state' : Tables K} {roomId r : UInt64}

/-- At most one room is registered, for a topic that had none. -/
def Registers (core : Core K) (state state' : Tables K) : Prop :=
  state'.topicToRoom = state.topicToRoom ∨ ∃ topic roomId, state.topicToRoom.find? topic = none ∧
    (core.allocRoom state.core).1 = some roomId ∧ roomId ≠ sentinel ∧
    state'.topicToRoom = state.topicToRoom.set topic roomId ∧
    (state'.core = (core.allocRoom state.core).2 ∨ ∃ room conn, state'.core = core.sub room conn (core.allocRoom state.core).2)

theorem RoomFor.registers (room : RoomFor core topic state roomId state') : Registers core state state' := by
  cases room with
  | found => exact .inl rfl
  | created unknown alloc valid => exact .inr ⟨topic, roomId, unknown, alloc, valid, rfl, .inl rfl⟩
  | failed => exact .inl rfl

/-- Registered rooms stay registered. -/
theorem Registers.keeps (reg : Registers core state state') (known : state.topicToRoom.find? t = some r) :
    state'.topicToRoom.find? t = some r := by
  rcases reg with same | ⟨topic, roomId, unknown, -, -, set, -⟩
  · rw [same, known]
  · have other : t ≠ topic := by
      rintro rfl
      rw [unknown] at known
      cases known
    rw [set, OrderedMap.find?_set_ne _ _ other, known]

theorem Registers.valid (reg : Registers core state state')
    (rooms : ∀ t r, state.topicToRoom.find? t = some r → r ≠ sentinel) :
    ∀ t r, state'.topicToRoom.find? t = some r → r ≠ sentinel := by
  intro t r known
  rcases reg with same | ⟨topic, roomId, -, -, valid, set, -⟩
  · rw [same] at known
    exact rooms t r known
  · rw [set, OrderedMap.find?_set] at known
    split at known
    · cases known
      exact valid
    · exact rooms t r known

theorem RoomFor.delivery_eq (room : RoomFor core topic state roomId state') : state'.delivery = state.delivery := by
  cases room <;> rfl

theorem RoomFor.registered (room : RoomFor core topic state roomId state') (valid : roomId ≠ sentinel) :
    state'.topicToRoom.find? topic = some roomId := by
  cases room with
  | found known => exact known
  | created => exact OrderedMap.find?_set_self _ _ _
  | failed => exact absurd rfl valid

theorem RoomFor.valid (room : RoomFor core topic state roomId state')
    (rooms : ∀ t r, state.topicToRoom.find? t = some r → r ≠ sentinel)
    (granted : (state.topicToRoom.find? topic).isSome ∨
      ∃ roomId, (core.allocRoom state.core).1 = some roomId ∧ roomId ≠ sentinel) : roomId ≠ sentinel := by
  cases room with
  | found known => exact rooms topic roomId known
  | created _ _ valid => exact valid
  | failed unknown alloc =>
    rcases granted with known | ⟨roomId, alloc', valid⟩
    · rw [unknown] at known
      cases known
    · exact absurd (alloc roomId alloc') valid

theorem handleSub_eq (core : Core K) (cnx : Cnx) (streamId : StreamId) (topic : Bytes) (state : Tables K) : ∃ roomId state',
    RoomFor core topic state roomId state' ∧ handleSub core cnx streamId topic state =
      if roomId = sentinel then state' else joinRoom core cnx streamId roomId state' :=
  ⟨_, _, roomFor core topic state, rfl⟩

theorem handleSketchSub_eq (core : Core K) (cnx : Cnx) (streamId : StreamId) (stream : Parse) (state : Tables K) :
    ∃ roomId state' sent,
    RoomFor core stream.topic state roomId state' ∧ handleSketchSub core cnx streamId stream state =
      if roomId = sentinel then (state', stream)
      else ({ joinRoom core cnx streamId roomId state' with sent := sent }, { stream with roomId := roomId }) :=
  ⟨_, _, _, roomFor core stream.topic state, rfl⟩

/-- A subscription: the room is found or made, and unless there is none the connection enters it. -/
structure Joins (core : Core K) (cnx : Cnx) (streamId : StreamId) (topic : Bytes) (state state' : Tables K) (roomId : UInt64)
    (mid : Tables K) : Prop where
  room : RoomFor core topic state roomId mid
  topicToRoom : state'.topicToRoom = mid.topicToRoom
  core : state'.core = if roomId = sentinel then mid.core else core.sub roomId cnx mid.core
  delivery : state'.delivery = if roomId = sentinel then mid.delivery else mid.delivery.set cnx (cnx, streamId)

theorem handleSub_joins (core : Core K) (cnx : Cnx) (streamId : StreamId) (topic : Bytes) (state : Tables K) :
    ∃ roomId mid, Joins core cnx streamId topic state (handleSub core cnx streamId topic state) roomId mid := by
  obtain ⟨roomId, mid, room, eq⟩ := handleSub_eq core cnx streamId topic state
  refine ⟨roomId, mid, room, ?_, ?_, ?_⟩
  all_goals
    rw [eq]
    split <;> rfl

theorem handleSketchSub_joins (core : Core K) (cnx : Cnx) (streamId : StreamId) (stream : Parse) (state : Tables K) :
    ∃ roomId mid, Joins core cnx streamId stream.topic state (handleSketchSub core cnx streamId stream state).1 roomId
      mid := by
  obtain ⟨roomId, mid, sent, room, eq⟩ := handleSketchSub_eq core cnx streamId stream state
  refine ⟨roomId, mid, room, ?_, ?_, ?_⟩
  all_goals
    rw [eq]
    split <;> rfl

theorem Joins.registers {mid : Tables K} (joins : Joins core cnx streamId topic state state' roomId mid) :
    Registers core state state' := by
  rw [Registers, joins.topicToRoom, joins.core]
  cases joins.room with
  | found => exact .inl rfl
  | created unknown alloc valid => exact .inr ⟨topic, roomId, unknown, alloc, valid, rfl, .inr ⟨_, _, if_neg valid⟩⟩
  | failed => exact .inl rfl

theorem handlePub_eq (core : Core K) (cnx : Cnx) (topic payload : Bytes) (state : Tables K) : ∃ roomId state' sent,
    RoomFor core topic state roomId state' ∧ handlePub core cnx topic payload state = { state' with sent := sent } := by
  have room := roomFor core topic state
  simp only [handlePub]
  generalize getOrCreateRoom core topic state = r at room
  by_cases valid : r.1 = sentinel
  · exact ⟨r.1, r.2, r.2.sent, room, by rw [if_pos valid]⟩
  · rw [if_neg valid]
    cases targets : core.pubTargets r.1 cnx r.2.core with
    | none => exact ⟨r.1, r.2, r.2.sent, room, rfl⟩
    | some targets => exact ⟨r.1, r.2, _, room, rfl⟩

theorem handleSketchFrame_eq (core : Core K) (cnx : Cnx) (roomId : UInt64) (frame : Bytes) (state : Tables K) : ∃ sent,
    handleSketchFrame core cnx roomId frame state =
      { state with core := (core.applyPacket roomId frame state.core).2, sent := sent } := by
  simp only [handleSketchFrame]
  split
  · split
    · exact ⟨state.sent, rfl⟩
    · exact ⟨_, rfl⟩
  · exact ⟨state.sent, rfl⟩

theorem handleZonePub_eq (core : Core K) (cnx : Cnx) (m : Motion) (payload : Bytes) (state : Tables K) : ∃ sent,
    handleZonePub core cnx m payload state = { state with
      core := core.entityMoveV cnx m.x m.y m.z (absMagnitude m.vx) (absMagnitude m.vy) (absMagnitude m.vz)
        (rttToTicks core cnx state.core) state.core
      sent := sent } := by
  simp only [handleZonePub]
  split
  · exact ⟨state.sent, rfl⟩
  · exact ⟨_, rfl⟩

theorem Turn.registers {s s' : Tables K × Parse} {used : Bytes} {out : List (Option Call)}
    (turn : Turn core cnx streamId s used out s') : Registers core s.1 s'.1 := by
  cases turn with
  | bare => exact .inl rfl
  | @header state stream verb topic _ _ _ _ _ header =>
    cases header with
    | sub =>
      obtain ⟨roomId, mid, joins⟩ := handleSub_joins core cnx streamId topic state
      exact joins.registers
    | pub => exact .inl rfl
    | skb =>
      obtain ⟨roomId, mid, joins⟩ := handleSketchSub_joins core cnx streamId
        { stream with topic := topic, headerParsed := true, isSketch := true } state
      exact joins.registers
    | zpb => exact .inl rfl
    | stop => exact .inl rfl
  | @frame state stream _ frame =>
    obtain ⟨sent, eq⟩ := handleSketchFrame_eq core cnx stream.roomId frame state
    rw [eq]
    exact .inl rfl
  | @pub state stream =>
    obtain ⟨roomId, state', sent, room, eq⟩ := handlePub_eq core cnx stream.topic used state
    rw [eq]
    exact room.registers
  | @zone state stream =>
    obtain ⟨sent, eq⟩ := handleZonePub_eq core cnx stream.motion used state
    rw [eq]
    exact .inl rfl

end Rooms

/-! ### Calls -/

/-- The tables after a call. -/
def perform (core : Core K) (cnx : Cnx) (streamId : StreamId) (state : Tables K) : Call → Tables K
  | .handleSub topic => handleSub core cnx streamId topic state
  | .handleSketchSub topic => (handleSketchSub core cnx streamId { topic := topic } state).1
  | .handleSketchFrame roomId frame => handleSketchFrame core cnx roomId frame state
  | .handlePub topic payload => handlePub core cnx topic payload state
  | .handleZoneSub => handleZoneSub cnx streamId state
  | .handleZonePub m payload => handleZonePub core cnx m payload state

theorem handleSketchSub_tables (core : Core K) (cnx : Cnx) (streamId : StreamId) (stream : Parse) (state : Tables K) :
    (handleSketchSub core cnx streamId stream state).1 = perform core cnx streamId state (.handleSketchSub stream.topic) := by
  simp only [perform, handleSketchSub]
  split <;> rfl

/-- A turn does nothing to the tables but what its calls do. -/
theorem Turn.performs {s s' : Tables K × Parse} {used : Bytes} {out : List (Option Call)}
    (turn : Turn core cnx streamId s used out s') :
    s'.1 = out.reduceOption.foldl (perform core cnx streamId) s.1 := by
  cases turn with
  | header _ _ _ header =>
    cases header with
    | skb => exact handleSketchSub_tables core cnx streamId _ _
    | _ => rfl
  | _ => rfl

/-- One of the calls subscribes to the topic. -/
def Subscribes (calls : List Call) (topic : Bytes) : Prop := .handleSub topic ∈ calls ∨ .handleSketchSub topic ∈ calls

/-- What a turn does to the core: it allocates a room, subscribes, applies a packet or moves an entity. -/
inductive CoreTurn (core : Core K) (cnx : Cnx) (calls : List Call) (rooms : OrderedMap Bytes UInt64) (k : K) : K → Prop where
  | same : CoreTurn core cnx calls rooms k k
  | alloc : CoreTurn core cnx calls rooms k (core.allocRoom k).2
  | sub {k' : K} {topic : Bytes} {roomId : UInt64} (alloc : k' = k ∨ k' = (core.allocRoom k).2)
      (call : Subscribes calls topic) (room : rooms.find? topic = some roomId) :
      CoreTurn core cnx calls rooms k (core.sub roomId cnx k')
  | apply (roomId : UInt64) (frame : Bytes) : CoreTurn core cnx calls rooms k (core.applyPacket roomId frame k).2
  | move (x y z : Int64) (vx vy vz rtt : UInt64) {m : Motion} {payload : Bytes}
      (call : .handleZonePub m payload ∈ calls) :
      CoreTurn core cnx calls rooms k (core.entityMoveV cnx x y z vx vy vz rtt k)

theorem RoomFor.core_eq {topic : Bytes} {state state' : Tables K} {roomId : UInt64}
    (room : RoomFor core topic state roomId state') :
    state'.core = state.core ∨ state'.core = (core.allocRoom state.core).2 := by
  cases room with
  | found => exact .inl rfl
  | created => exact .inr rfl
  | failed => exact .inr rfl

theorem Joins.coreTurn {topic : Bytes} {state state' mid : Tables K} {roomId : UInt64} {calls : List Call}
    (joins : Joins core cnx streamId topic state state' roomId mid) (call : Subscribes calls topic) :
    CoreTurn core cnx calls state'.topicToRoom state.core state'.core := by
  rw [joins.core, joins.topicToRoom]
  by_cases valid : roomId = sentinel
  · rw [if_pos valid]
    rcases joins.room.core_eq with same | alloc
    · rw [same]
      exact .same
    · rw [alloc]
      exact .alloc
  · rw [if_neg valid]
    exact .sub joins.room.core_eq call (joins.room.registered valid)

theorem Turn.coreTurn {s s' : Tables K × Parse} {used : Bytes} {out : List (Option Call)}
    (turn : Turn core cnx streamId s used out s') :
    CoreTurn core cnx out.reduceOption s'.1.topicToRoom s.1.core s'.1.core := by
  cases turn with
  | bare => exact .same
  | @header state stream _ topic _ _ mode noSpace _ header =>
    cases header with
    | sub =>
      obtain ⟨roomId, mid, joins⟩ := handleSub_joins core cnx streamId topic state
      exact joins.coreTurn (by simp [Subscribes])
    | skb =>
      obtain ⟨roomId, mid, joins⟩ := handleSketchSub_joins core cnx streamId
        { stream with topic := topic, headerParsed := true, isSketch := true } state
      exact joins.coreTurn (by simp [Subscribes])
    | _ => exact .same
  | @frame state stream _ frame =>
    obtain ⟨sent, eq⟩ := handleSketchFrame_eq core cnx stream.roomId frame state
    rw [eq]
    exact .apply _ _
  | @pub state stream =>
    obtain ⟨roomId, state', sent, room, eq⟩ := handlePub_eq core cnx stream.topic used state
    rw [eq]
    rcases room.core_eq with same | alloc
    · exact same ▸ .same
    · exact alloc ▸ .alloc
  | @zone state stream =>
    obtain ⟨sent, eq⟩ := handleZonePub_eq core cnx stream.motion used state
    rw [eq]
    exact .move _ _ _ _ _ _ _ (List.mem_singleton_self _)

/-! ### Cleaning up -/

/-- What is done for a closing stream after its delivery slot is freed. -/
theorem cleanupStream_eq (core : Core K) (cnx : Cnx) (streamId : StreamId) (stream : Parse) (state : Tables K) :
    (cleanupStream core cnx streamId stream state).topicToRoom = state.topicToRoom ∧
    (cleanupStream core cnx streamId stream state).delivery =
      (if state.delivery.find? cnx = some (cnx, streamId) then state.delivery.erase cnx else state.delivery) ∧
    (cleanupStream core cnx streamId stream state).core =
      if stream.isZonePub then core.entityRemove cnx state.core
      else if stream.headerParsed && !stream.isPub then
        match state.topicToRoom.find? stream.topic with
        | none => state.core
        | some roomId => core.unsub roomId cnx state.core
      else state.core := by
  simp only [cleanupStream]
  by_cases slot : state.delivery.find? cnx = some (cnx, streamId)
  all_goals
    simp only [slot, if_true, if_false]
    cases stream.isZonePub
    · cases stream.headerParsed && !stream.isPub
      · exact ⟨rfl, rfl, rfl⟩
      · cases state.topicToRoom.find? stream.topic <;> exact ⟨rfl, rfl, rfl⟩
    · exact ⟨rfl, rfl, rfl⟩

end WeftWarp.Fanout
