import WeftWarp.Theorems.FanoutServer
import WeftWarp.Theorems.FanoutCore

/-! The handlers get what was sent.

    The bytes of a stream arrive in chunks, with events of other streams between them that change the tables. The
    parser of the stream makes a call for each frame and each publication all the same, in order and with its bytes. -/

namespace WeftWarp.Fanout

open Feed

/-! ### Arrival -/

/-- An event that leaves the stream alone. -/
def Event.Apart (key : Key) : Event → Prop
  | .streamData cnx streamId _ | .streamFin cnx streamId _ | .streamReset cnx streamId => (cnx, streamId) ≠ key
  | .close cnx => cnx ≠ key.1
  | .other => True

/-- The bytes arrive on the stream, in chunks of any size among events that leave it alone; it may be closed with the
    last chunk. -/
inductive Arrives (key : Key) : List Event → Bytes → Prop where
  | nil : Arrives key [] []
  | apart {event : Event} {events : List Event} {bytes : Bytes} (apart : event.Apart key)
      (later : Arrives key events bytes) : Arrives key (event :: events) bytes
  | data {events : List Event} {bytes : Bytes} (chunk : Bytes) (later : Arrives key events bytes) :
      Arrives key (.streamData key.1 key.2 chunk :: events) (chunk ++ bytes)
  | fin {events : List Event} (chunk : Bytes) (silent : ∀ event ∈ events, event.Apart key) :
      Arrives key (.streamFin key.1 key.2 chunk :: events) chunk

/-- The stream whose parser an event sets to work. -/
def Event.pumps : Event → Option Key
  | .streamData cnx streamId _ | .streamFin cnx streamId _ => some (cnx, streamId)
  | _ => none

/-- The calls that the parser of a stream makes during the events. -/
def callsOn {K : Type} (core : Core K) (key : Key) : List Event → BridgeState K → List Call
  | [], _ => []
  | event :: events, state =>
    (if event.pumps = some key then (fanoutStreamCallback core event state).2 else []) ++
      callsOn core key events (fanoutStreamCallback core event state).1

section Arrival
variable {K : Type} {core : Core K} {key : Key} {event : Event} {events : List Event}

theorem Event.Apart.pumps_ne (apart : event.Apart key) : event.pumps ≠ some key := by
  cases event with
  | streamData | streamFin => exact fun same => apart (Option.some.inj same)
  | _ => exact fun same => by cases same

theorem find?_receive_of_ne {cnx : Cnx} {streamId : StreamId} (other : (cnx, streamId) ≠ key) (bytes : Bytes)
    (state : BridgeState K) :
    (receive core cnx streamId bytes state).1.streams.find? key = state.streams.find? key :=
  OrderedMap.find?_set_ne _ _ other.symm

theorem find?_of_apart (apart : event.Apart key) (state : BridgeState K) :
    (fanoutStreamCallback core event state).1.streams.find? key = state.streams.find? key := by
  cases event with
  | streamData cnx streamId bytes => exact find?_receive_of_ne apart bytes state
  | streamFin cnx streamId bytes =>
    rw [fanoutStreamCallback, find?_finish, if_neg (Ne.symm apart)]
    exact find?_receive_of_ne apart bytes state
  | streamReset cnx streamId => rw [fanoutStreamCallback, find?_finish, if_neg (Ne.symm apart)]
  | close cnx =>
    rw [fanoutStreamCallback, OrderedMap.find?_filter]
    exact if_pos (decide_eq_true (Ne.symm apart))
  | other => rfl

theorem callsOn_of_apart (silent : ∀ event ∈ events, event.Apart key) (state : BridgeState K) :
    callsOn core key events state = [] := by
  induction events generalizing state with
  | nil => rfl
  | cons event events ih =>
    obtain ⟨apart, silent⟩ := List.forall_mem_cons.mp silent
    rw [callsOn, if_neg apart.pumps_ne, ih silent, List.append_nil]

/-- What others do to the tables between the chunks is all that the stream gets to know of them. -/
theorem callsOn_eq_feedAmid (core : Core K) {bytes : Bytes} (arrives : Arrives key events bytes) (state : BridgeState K)
    (stream : StreamState) (found : (state.streams.find? key).getD {} = stream) :
    ∃ chunks : List (Tables K × Bytes), (chunks.map Prod.snd).flatten = bytes ∧
      callsOn core key events state = feedAmid (pumpRound core key.1 key.2) stream.toParse stream.buf chunks := by
  induction arrives generalizing state stream with
  | nil => exact ⟨[], rfl, rfl⟩
  | apart apart _ ih =>
    obtain ⟨chunks, flat, calls⟩ := ih (fanoutStreamCallback core _ state).1 stream (by rw [find?_of_apart apart, found])
    exact ⟨chunks, flat, by rw [callsOn, if_neg apart.pumps_ne]; exact calls⟩
  | data chunk _ ih =>
    have here : (Event.streamData key.1 key.2 chunk).pumps = some key := rfl
    obtain ⟨chunks, rfl, calls⟩ := ih (fanoutStreamCallback core (.streamData key.1 key.2 chunk) state).1 _ rfl
    refine ⟨(state.toTables, chunk) :: chunks, rfl, ?_⟩
    rw [callsOn, if_pos here, calls]
    simp [fanoutStreamCallback, receive, found, pumpStream, feedAmid]
  | fin chunk silent =>
    have here : (Event.streamFin key.1 key.2 chunk).pumps = some key := rfl
    refine ⟨[(state.toTables, chunk)], by simp, ?_⟩
    rw [callsOn, if_pos here, callsOn_of_apart silent, List.append_nil]
    simp [fanoutStreamCallback, receive, found, pumpStream, feedAmid]

end Arrival

/-! ### Frames of a sketch -/

theorem frameLen_lenPrefix {n : Nat} (fits : n < 2 ^ 32) (rest : Bytes) : frameLen (lenPrefix n ++ rest) = some n := by
  simp only [lenPrefix, List.cons_append, List.nil_append, frameLen, UInt8.toNat_ofNat']
  congr 1
  omega

/-- A frame behind its length. -/
def frameBytes (frame : Bytes) : Bytes := lenPrefix frame.length ++ frame

/-- A sketch stream: its header and its frames. -/
def sketchBytes (topic : Bytes) (frames : List Bytes) : Bytes :=
  skbVerb ++ space :: topic ++ [newline] ++ frames.flatMap frameBytes

/-- A publication: a topic and a payload. -/
structure Publication where
  topic : Bytes
  payload : Bytes
  line : newline ∉ topic
  complete : payload.length = 100

/-- A header and its payload. -/
def Publication.bytes (p : Publication) : Bytes := pubVerb ++ space :: p.topic ++ [newline] ++ p.payload

section Expected
variable {K : Type} {core : Core K} {cnx : Cnx} {streamId : StreamId} {stream : Parse}

theorem expects_frames (mode : stream.headerParsed = true) (sketch : stream.isSketch = true) {frames : List Bytes}
    (bound : ∀ frame ∈ frames, frame.length ≤ kMaxSketchFrame) :
    Expects (pumpRound core cnx streamId) stream (frames.flatMap frameBytes)
      (· = frames.map (.handleSketchFrame stream.roomId)) := by
  induction frames with
  | nil => exact .done rfl
  | cons frame frames ih =>
    obtain ⟨here, bound⟩ := List.forall_mem_cons.mp bound
    have fits : frame.length < 2 ^ 32 := Nat.lt_of_le_of_lt here (by decide)
    have turn (state : Tables K) : Turn core cnx streamId (state, stream) (frameBytes frame)
        [some (.handleSketchFrame stream.roomId frame)] (handleSketchFrame core cnx stream.roomId frame state, stream) :=
      .frame mode sketch (frameLen_lenPrefix fits frame) here rfl
    rw [List.flatMap_cons]
    refine .round _ (fun _ => [.handleSketchFrame stream.roomId frame]) (fun state => (turn state).next _) fun state => ?_
    refine (ih bound).mono fun calls same => ?_
    rw [same, List.map_cons, List.singleton_append]

theorem expects_sketch (mode : stream.headerParsed = false) {topic : Bytes} (line : newline ∉ topic)
    {frames : List Bytes} (bound : ∀ frame ∈ frames, frame.length ≤ kMaxSketchFrame) :
    Expects (pumpRound core cnx streamId) stream (sketchBytes topic frames)
      fun calls => ∃ roomId, calls = .handleSketchSub topic :: frames.map (.handleSketchFrame roomId) := by
  have turn (state : Tables K) : Turn core cnx streamId (state, stream) (skbVerb ++ space :: topic ++ [newline])
      [some (.handleSketchSub topic)] _ := .header mode (by decide) (notMem_header (by decide) line) .skb
  refine .round _ (fun _ => [.handleSketchSub topic]) (fun state => (turn state).next _) fun state => ?_
  obtain ⟨roomId, joined⟩ := handleSketchSub_stream core cnx streamId
    { stream with topic := topic, headerParsed := true, isSketch := true } state
  rw [joined]
  refine (expects_frames ?_ ?_ bound).mono fun calls same => ⟨roomId, ?_⟩
  · rfl
  · rfl
  · rw [same, List.singleton_append]

/-! ### Publications -/

theorem expects_publications (mode : stream.headerParsed = false) (sketch : stream.isSketch = false)
    (publications : List Publication) :
    Expects (pumpRound core cnx streamId) stream (publications.flatMap Publication.bytes)
      (· = publications.map fun p => .handlePub p.topic p.payload) := by
  induction publications generalizing stream with
  | nil => exact .done rfl
  | cons p publications ih =>
    have header (state : Tables K) : Turn core cnx streamId (state, stream) (pubVerb ++ space :: p.topic ++ [newline])
        [] (state, { stream with topic := p.topic, headerParsed := true, isPub := true }) :=
      .header mode (by decide) (notMem_header (by decide) p.line) .pub
    have payload (state : Tables K) : Turn core cnx streamId
        (state, { stream with topic := p.topic, headerParsed := true, isPub := true }) p.payload
        [some (.handlePub p.topic p.payload)] _ := .pub rfl sketch rfl p.complete
    rw [List.flatMap_cons, Publication.bytes, List.append_assoc]
    refine .round _ (fun _ => []) (fun state => (header state).next _) fun _ => ?_
    refine .round _ (fun _ => [.handlePub p.topic p.payload]) (fun state => (payload state).next _) fun _ => ?_
    refine (ih ?_ ?_).mono fun calls same => ?_
    · rfl
    · exact sketch
    · rw [same, List.map_cons, List.nil_append, List.singleton_append]

/-- The handlers of a fresh stream are called once for each frame or publication, in order and with its bytes. -/
theorem callsOn_faithful (core : Core K) (cnx : Cnx) (streamId : StreamId) (state : BridgeState K)
    (fresh : state.streams.find? (cnx, streamId) = none) (events : List Event) :
    (∀ topic : Bytes, newline ∉ topic → ∀ frames : List Bytes, (∀ frame ∈ frames, frame.length ≤ 2 ^ 20) →
      Arrives (cnx, streamId) events (sketchBytes topic frames) →
      ∃ roomId, callsOn core (cnx, streamId) events state =
        .handleSketchSub topic :: frames.map (.handleSketchFrame roomId)) ∧
    ∀ publications : List Publication, Arrives (cnx, streamId) events (publications.flatMap Publication.bytes) →
      callsOn core (cnx, streamId) events state = publications.map fun p => .handlePub p.topic p.payload := by
  have inc := incremental core cnx streamId
  have arrived {bytes : Bytes} {P : List Call → Prop} (arrives : Arrives (cnx, streamId) events bytes)
      (expects : Expects (pumpRound core cnx streamId) {} bytes P) : P (callsOn core (cnx, streamId) events state) := by
    obtain ⟨chunks, rfl, calls⟩ := callsOn_eq_feedAmid core arrives state {} (by rw [fresh]; rfl)
    rw [calls]
    exact Expects.feedAmid inc chunks (inc.waits_nil (state.toTables, {})) expects
  refine ⟨fun topic line frames bound arrives => arrived arrives (expects_sketch rfl line bound), ?_⟩
  exact fun publications arrives => arrived arrives (expects_publications rfl rfl publications)

end Expected

/-- A frame of three bytes and an empty one, cut within the first length; another stream subscribes in between. -/
def sketchArrival : List Event :=
  [.streamData 1 0 (ascii ['S', 'K', 'B', ' ', 't', '\n'] ++ [3, 0]),
    .streamData 2 0 (ascii ['S', 'U', 'B', ' ', 't', '\n']), .streamData 1 0 [0, 0, 10, 11, 12, 0, 0, 0], .streamFin 1 0 [0]]

theorem callsOn_faithful_sketch : ∃ roomId, callsOn listCore (1, 0) sketchArrival { core := {} } =
    [.handleSketchSub (ascii ['t']), .handleSketchFrame roomId [10, 11, 12], .handleSketchFrame roomId []] := by
  have arrives : Arrives (1, 0) sketchArrival (sketchBytes (ascii ['t']) [[10, 11, 12], []]) :=
    .data _ (.apart (by simp [Event.Apart]) (.data _ (.fin _ (by simp))))
  exact (callsOn_faithful listCore 1 0 { core := {} } rfl sketchArrival).1 _ (by decide) _ (by decide) arrives

end WeftWarp.Fanout
