import WeftWarp.Theorems.FanoutServer
import WeftWarp.Theorems.FanoutHandlers
import WeftWarp.Theorems.FanoutCore

/-! The room that sketch frames go to.

    The room of a sketch stream is stored on the stream when its `SKB` header is read. When the room cannot be
    allocated the stream is a sketch stream all the same, and its room stays 0. So frames are certain to stay in the
    room of their topic as long as no `SKB` header meets a failing allocation. -/

namespace WeftWarp.Fanout

open Feed

variable {K : Type} {core : Core K}

/-- The topic of an `SKB` header has a room or gets one. -/
def RoomGranted (core : Core K) : Guard K := fun state _ _ verb topic =>
  verb = skbVerb → (state.topicToRoom.find? topic).isSome ∨
    ∃ roomId, (core.allocRoom state.core).1 = some roomId ∧ roomId ≠ sentinel

/-- A stream that made a call of a sketch is and remains a sketch stream, and its room is the room of its topic. -/
structure SketchOk (state : Tables K) (s : OpenStream) : Prop where
  subscribed : ∀ t, .handleSketchSub t ∈ s.made →
    s.parse.headerParsed = true ∧ s.parse.isSketch = true ∧ state.topicToRoom.find? t = some s.parse.roomId
  framed : ∀ roomId frame, .handleSketchFrame roomId frame ∈ s.made →
    s.parse.headerParsed = true ∧ s.parse.isSketch = true

namespace SketchOk
variable {state state' : Tables K} {s : OpenStream} {parse : Parse}

theorem fresh (state : Tables K) : SketchOk state {} where
  subscribed _ mem := by cases mem
  framed _ _ mem := by cases mem

theorem mono (ok : SketchOk state s)
    (keeps : ∀ t roomId, state.topicToRoom.find? t = some roomId → state'.topicToRoom.find? t = some roomId) :
    SketchOk state' s where
  subscribed t mem := by
    obtain ⟨mode, sketch, room⟩ := ok.subscribed t mem
    exact ⟨mode, sketch, keeps t _ room⟩
  framed := ok.framed

/-- A stream that is not a sketch stream, or still reads headers, has made no call of a sketch. -/
theorem of_others (ok : SketchOk state s) {calls : List Call}
    (other : s.parse.headerParsed = false ∨ s.parse.isSketch = false)
    (noSub : ∀ t, .handleSketchSub t ∉ calls) (noFrame : ∀ roomId frame, .handleSketchFrame roomId frame ∉ calls) :
    SketchOk state' ⟨parse, s.made ++ calls⟩ := by
  have noSketch : ¬ (s.parse.headerParsed = true ∧ s.parse.isSketch = true) := by
    rintro ⟨mode, sketch⟩
    rw [mode, sketch] at other
    simp at other
  constructor
  · intro t mem
    rcases List.mem_append.mp mem with old | new
    · obtain ⟨mode, sketch, -⟩ := ok.subscribed t old
      exact absurd ⟨mode, sketch⟩ noSketch
    · exact absurd new (noSub t)
  · intro roomId frame mem
    rcases List.mem_append.mp mem with old | new
    · exact absurd (ok.framed roomId frame old) noSketch
    · exact absurd new (noFrame roomId frame)

end SketchOk

section Turns
variable {cnx : Cnx} {streamId : StreamId} {state : Tables K} {s : OpenStream} {used : Bytes} {out : List (Option Call)}
  {s' : Tables K × Parse} {parses : Key → Option Parse} {key : Key}

theorem Turn.sketchOk (turn : Turn core cnx streamId (state, s.parse) used out s')
    (granted : s.parse.headerParsed = false → ∀ verb topic, used = verb ++ space :: topic ++ [newline] → space ∉ verb →
      RoomGranted core state parses key verb topic)
    (rooms : ∀ t r, state.topicToRoom.find? t = some r → r ≠ sentinel)
    (ok : SketchOk state s) : SketchOk s'.1 ⟨s'.2, s.made ++ out.reduceOption⟩ := by
  cases turn with
  | bare mode => exact ok.of_others (.inl mode) (by simp) (by simp)
  | @header _ _ _ topic _ _ mode noSpace noBreak header =>
    cases header with
    | sub => exact ok.of_others (.inl mode) (by simp) (by simp)
    | pub => exact ok.of_others (.inl mode) (by simp) (by simp)
    | skb =>
      obtain ⟨roomId, state', sent, room, eq⟩ := handleSketchSub_eq core cnx streamId
        { s.parse with topic := topic, headerParsed := true, isSketch := true } state
      have valid := room.valid rooms (granted mode skbVerb topic rfl noSpace rfl)
      rw [if_neg valid] at eq
      rw [eq]
      constructor
      · intro t mem
        rcases List.mem_append.mp mem with old | new
        · have mode' := (ok.subscribed t old).1
          rw [mode] at mode'
          cases mode'
        · cases List.mem_singleton.mp new
          exact ⟨rfl, rfl, room.registered valid⟩
      · intro roomId frame mem
        exact ⟨rfl, rfl⟩
    | zpb => exact ok.of_others (.inl mode) (by simp) (by simp)
    | stop => exact ok.of_others (.inl mode) (by simp) (by simp)
  | @frame _ _ _ frame mode sketch =>
    obtain ⟨sent, eq⟩ := handleSketchFrame_eq core cnx s.parse.roomId frame state
    rw [eq]
    constructor
    · intro t mem
      rcases List.mem_append.mp mem with old | new
      · exact ok.subscribed t old
      · cases List.mem_singleton.mp new
    · intro roomId frame mem
      exact ⟨mode, sketch⟩
  | pub mode sketch => exact ok.of_others (.inr sketch) (by simp) (by simp)
  | zone mode sketch => exact ok.of_others (.inr sketch) (by simp) (by simp)

/-- A turn makes at most one call, and a frame is given the room that is stored on the stream. -/
theorem Turn.calls {s : Tables K × Parse} (turn : Turn core cnx streamId s used out s') :
    out.reduceOption = [] ∨ ∃ call, out.reduceOption = [call] ∧
      ∀ roomId frame, call = .handleSketchFrame roomId frame → roomId = s.2.roomId := by
  cases turn with
  | bare => exact .inl rfl
  | header _ _ _ header =>
    cases header with
    | sub => exact .inr ⟨_, rfl, fun _ _ same => by cases same⟩
    | pub => exact .inl rfl
    | skb => exact .inr ⟨_, rfl, fun _ _ same => by cases same⟩
    | zpb => exact .inr ⟨_, rfl, fun _ _ same => by cases same⟩
    | stop => exact .inl rfl
  | frame =>
    refine .inr ⟨_, rfl, fun roomId frame same => ?_⟩
    cases same
    rfl
  | pub => exact .inr ⟨_, rfl, fun _ _ same => by cases same⟩
  | zone => exact .inr ⟨_, rfl, fun _ _ same => by cases same⟩

end Turns

/-! ### Whole runs -/

/-- No room is the sentinel, and the sketch streams are in order. -/
structure SketchesOk (v : View K) : Prop where
  rooms : ∀ t r, v.tables.topicToRoom.find? t = some r → r ≠ sentinel
  streams : ∀ key s, v.streams key = some s → SketchOk v.tables s

theorem SketchesOk.move {v v' : View K} (move : Move core (RoomGranted core) v v') (ok : SketchesOk v) :
    SketchesOk v' := by
  cases move with
  | opened fresh =>
    refine ⟨ok.rooms, fun key s found => ?_⟩
    rcases update_some_eq_some.mp found with ⟨-, rfl⟩ | ⟨-, found⟩
    · exact .fresh _
    · exact ok.streams key s found
  | turned found turn heeds =>
    refine ⟨turn.registers.valid ok.rooms, fun key s found' => ?_⟩
    rcases update_some_eq_some.mp found' with ⟨-, rfl⟩ | ⟨-, found'⟩
    · exact turn.sketchOk heeds ok.rooms (ok.streams _ _ found)
    · exact (ok.streams key s found').mono fun _ _ => turn.registers.keeps
  | @finished key s found =>
    obtain ⟨rooms, -, -⟩ := cleanupStream_eq core key.1 key.2 s.parse v.tables
    refine ⟨fun t r known => ok.rooms t r (by rwa [rooms] at known), fun key s found' => ?_⟩
    have found' := (update_none_eq_some.mp found').2
    exact (ok.streams key s found').mono fun t r known => by rwa [rooms]

theorem SketchesOk.start (k : K) : SketchesOk (Server.start k).view where
  rooms t r known := by cases known
  streams key s found := by cases found

theorem SketchesOk.stream {server : Server K} (ok : SketchesOk server.view) (key : Key) :
    SketchOk server.bridge.toTables ⟨((server.bridge.streams.find? key).getD {}).toParse, server.calls key⟩ := by
  cases entry : server.bridge.streams.find? key with
  | none =>
    simp only [Server.calls, entry]
    exact .fresh _
  | some old =>
    simp only [Server.calls, entry]
    exact ok.streams key _ (by simp [Server.view, entry])

/-- On the way through a chunk the tables follow the calls, and every frame so far went to the room of its topic. -/
structure Placed (core : Core K) (cnx : Cnx) (streamId : StreamId) (start : Tables K) (made : List Call)
    (s : Tables K × Parse) (seen : List Call) : Prop where
  tables : s.1 = seen.foldl (perform core cnx streamId) start
  rooms : ∀ t r, s.1.topicToRoom.find? t = some r → r ≠ sentinel
  sketch : SketchOk s.1 ⟨s.2, made ++ seen⟩
  frames : ∀ pre post roomId frame topic, seen = pre ++ .handleSketchFrame roomId frame :: post →
    .handleSketchSub topic ∈ made ++ pre →
    (pre.foldl (perform core cnx streamId) start).topicToRoom.find? topic = some roomId

theorem Placed.turn {cnx : Cnx} {streamId : StreamId} {start : Tables K} {made seen : List Call}
    {s s' : Tables K × Parse} {used : Bytes} {out : List (Option Call)} {parses : Key → Option Parse} {key : Key}
    (placed : Placed core cnx streamId start made s seen) (turn : Turn core cnx streamId s used out s')
    (granted : s.2.headerParsed = false → ∀ verb topic, used = verb ++ space :: topic ++ [newline] → space ∉ verb →
      RoomGranted core s.1 parses key verb topic) :
    Placed core cnx streamId start made s' (seen ++ out.reduceOption) := by
  obtain ⟨tables, rooms, sketch, frames⟩ := placed
  obtain ⟨state, parse⟩ := s
  constructor
  · rw [turn.performs, List.foldl_append, ← tables]
  · exact turn.registers.valid rooms
  · have after := turn.sketchOk (s := ⟨parse, _⟩) granted rooms sketch
    rwa [List.append_assoc] at after
  · intro pre post roomId frame topic split opened
    rcases turn.calls with none | ⟨call, one, stored⟩
    · rw [none, List.append_nil] at split
      exact frames pre post roomId frame topic split opened
    · rw [one] at split
      rcases List.eq_nil_or_concat post with rfl | ⟨post', last, rfl⟩
      · obtain ⟨rfl, same⟩ := List.append_inj' split rfl
        rw [stored roomId frame (List.singleton_inj.mp same), ← tables]
        exact (sketch.subscribed topic opened).2.2
      · rw [List.concat_eq_append, ← List.cons_append, ← List.append_assoc] at split
        exact frames pre post' roomId frame topic (List.append_inj' split rfl).1 opened

/-- While no `SKB` header meets a failing allocation, every frame that a chunk hands over goes to the room that the
    topic of its stream has at that time. -/
theorem sketchFrame_in_room (core : Core K) (k : K) {events : List Event} {server : Server K}
    (run : Run (Serves core (RoomGranted core)) (.start k) events server) (cnx : Cnx) (streamId : StreamId)
    (bytes : Bytes) (granted : HeedsChunk core (RoomGranted core) cnx streamId bytes server)
    (pre post : List Call) (roomId : UInt64) (frame topic : Bytes)
    (handed : (receive core cnx streamId bytes server.bridge).2 = pre ++ .handleSketchFrame roomId frame :: post)
    (opened : .handleSketchSub topic ∈ server.calls (cnx, streamId) ++ pre) :
    let state := pre.foldl (perform core cnx streamId) server.bridge.toTables
    state.topicToRoom.find? topic = some roomId ∧
      (receive core cnx streamId bytes server.bridge).1.toTables =
        post.foldl (perform core cnx streamId) (handleSketchFrame core cnx roomId frame state) := by
  have ok := holds_of_run (fun _ _ => SketchesOk.move) run (.start k)
  have before := ok.stream (cnx, streamId)
  rw [HeedsChunk] at granted
  generalize found : (server.bridge.streams.find? (cnx, streamId)).getD {} = stream at granted before
  have during := Along.invariant
    (I := Placed core cnx streamId server.bridge.toTables (server.calls (cnx, streamId))) ?_
    _ _ _ [] granted ⟨rfl, ok.rooms, by rwa [List.append_nil], by simp⟩
  · simp only [receive, pumpStream, found] at handed ⊢
    rw [List.nil_append] at during
    refine ⟨during.frames pre post roomId frame topic handed opened, ?_⟩
    rw [during.tables, handed, List.foldl_append, List.foldl_cons]
    rfl
  · intro s buf s' rest out seen meets next placed
    obtain ⟨used, rfl, turn⟩ := turn_of_next next
    exact placed.turn turn fun mode verb topic header noSpace =>
      meets mode verb topic rest (by rw [header]; simp) noSpace

/-! ### Rooms enough, and a room too few -/

/-- The header of a sketch. -/
def skbHeader (topic : Char) : Bytes := ascii ['S', 'K', 'B', ' ', topic, '\n']

/-- A frame of the single byte 9. -/
def shortFrame : Bytes := lenPrefix 1 ++ [9]

theorem roomGranted_loopCore (state : Tables Lists) (parses : Key → Option Parse) (key : Key) (verb topic : Bytes) :
    RoomGranted loopCore state parses key verb topic := fun _ => .inr (allocRoom_loopCore state.core)

theorem sketchFrame_in_room_loopCore :
    let server := serve loopCore (.streamData 1 0 (skbHeader 't')) (.start {})
    server.bridge.topicToRoom.find? (ascii ['t']) = some 0 ∧
      (receive loopCore 1 0 shortFrame server.bridge).1.toTables =
        handleSketchFrame loopCore 1 0 [9] server.bridge.toTables :=
  sketchFrame_in_room loopCore {}
    (.step ⟨.streamData 1 0 (skbHeader 't'), rfl, heeds_of_forall roomGranted_loopCore _ _, rfl⟩ (.refl _)) 1 0
    shortFrame (heedsChunk_of_forall roomGranted_loopCore 1 0 shortFrame _) [] [] 0 [9] (ascii ['t'])
    (by decide +kernel) (by decide +kernel)

/-- A core with a single room. -/
def oneRoom : Core Lists :=
  { listCore with allocRoom := fun k => if k.next = 0 then (some 0, { k with next := 1 }) else (none, k) }

/-- The only room belongs to topic `a`. A sketch on topic `t` gets no room, but its frame is applied to that room and
    relayed to the subscriber of `a`. -/
theorem sketchFrame_in_other_room :
    let server := serve oneRoom (.streamData 2 0 (subHeader 'a')) (.start {})
    let r := receive oneRoom 1 0 (skbHeader 't' ++ shortFrame) server.bridge
    r.2 = [.handleSketchSub (ascii ['t']), .handleSketchFrame 0 [9]] ∧
      r.1.topicToRoom.find? (ascii ['t']) = none ∧ r.1.topicToRoom.find? (ascii ['a']) = some 0 ∧
      r.1.core.packets = [(0, [9])] ∧ r.1.sent = [(2, 0, lenPrefix 1), (2, 0, [9])] := by
  decide +kernel

end WeftWarp.Fanout
