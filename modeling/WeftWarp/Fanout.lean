import Mathlib.Algebra.Group.Int.Defs
import Mathlib.Algebra.Group.Nat.Defs
import WeftWarp.Lib.OrderedMap
import WeftWarp.Lib.Feed

/-! The fan-out server: QUIC streams that carry a text protocol of topics, zones and sketches.

    Which connection is in which room, and where its entity is, is kept by a separate core that the server calls;
    here it is a structure of operations on a state of any type. Everything else is the server's own: the parser of
    a stream, the handlers it calls, and the callback that picoquic makes for every stream event. -/

namespace WeftWarp.Fanout

open Feed

abbrev Bytes := List UInt8
abbrev Cnx := UInt64
abbrev StreamId := UInt64

/-- A connection is known to the core by its address. -/
abbrev connIdOf (cnx : Cnx) : UInt64 := cnx

def ascii (text : List Char) : Bytes := text.map Char.toUInt8

def newline : UInt8 := 10
def space : UInt8 := 32
def minus : UInt8 := 45

/-- What stands before the first `sep` and what stands behind it. -/
def cutAt (sep : UInt8) : Bytes → Option (Bytes × Bytes)
  | [] => none
  | b :: bytes => if b = sep then some ([], bytes) else (cutAt sep bytes).map fun (front, back) => (b :: front, back)

/-! ### Positions and velocities -/

structure Motion where
  x : Int64 := 0
  y : Int64 := 0
  z : Int64 := 0
  vx : Int64 := 0
  vy : Int64 := 0
  vz : Int64 := 0
  deriving DecidableEq, Repr

def absMagnitude (v : Int64) : UInt64 := if v < 0 then (-v).toUInt64 else v.toUInt64

def isDigit (b : UInt8) : Bool := 48 ≤ b && b ≤ 57

def decimal (digits : Bytes) : Nat := digits.foldl (fun n b => 10 * n + (b.toNat - 48)) 0

/-- `std::from_chars` for `int64_t`: the value and where it stopped. It takes no sign but a minus, and fails
    without writing when there is no digit or the value does not fit. -/
def fromChars (p : Bytes) : Option (Int64 × Bytes) :=
  let negative := p.head? = some minus
  let q := if negative then p.tail else p
  let digits := q.takeWhile isDigit
  let n : Int := if negative then -decimal digits else decimal digits
  if digits = [] then none
  else if -2 ^ 63 ≤ n ∧ n < 2 ^ 63 then some (Int64.ofInt n, q.dropWhile isDigit)
  else none

def zpbFields : List (Int64 → Motion → Motion) :=
  [fun v m => { m with x := v }, fun v m => { m with y := v }, fun v m => { m with z := v },
   fun v m => { m with vx := v }, fun v m => { m with vy := v }, fun v m => { m with vz := v }]

/-- The loop of `parseZpbFields`: every field is written as soon as it is read, also when a later one fails. -/
def parseZpbLoop : List (Int64 → Motion → Motion) → Bytes → Motion → Bool × Motion
  | [], _, m => (true, m)
  | write :: fields, p, m =>
    match fromChars p with
    | none => (false, m)
    | some (v, q) =>
      if fields.isEmpty then (q.isEmpty, write v m)
      else match q with
        | b :: p' => if b = space then parseZpbLoop fields p' (write v m) else (false, write v m)
        | [] => (false, write v m)

def parseZpbFields (rest : Bytes) (m : Motion) : Bool × Motion := parseZpbLoop zpbFields rest m

/-! ### State -/

/-- The fan-out core, the sketch core and the round trip times of picoquic, over their own state. -/
structure Core (K : Type) where
  /-- `none` is an error result. -/
  allocRoom : K → Option UInt64 × K
  sub : UInt64 → UInt64 → K → K
  unsub : UInt64 → UInt64 → K → K
  pubTargets : UInt64 → UInt64 → K → Option (List UInt64)
  entityMoveV : UInt64 → Int64 → Int64 → Int64 → UInt64 → UInt64 → UInt64 → UInt64 → K → K
  entityRemove : UInt64 → K → K
  zoneTargets : UInt64 → Int64 → Int64 → Int64 → K → Option (List UInt64)
  applyPacket : UInt64 → Bytes → K → Bool × K
  history : UInt64 → K → List Bytes
  getRtt : Cnx → K → UInt64

def sentinel : UInt64 := 0xFFFFFFFFFFFFFFFF

/-- A stream's parse state but for its buffer. -/
structure Parse where
  headerParsed : Bool := false
  isPub : Bool := false
  isSketch : Bool := false
  isZonePub : Bool := false
  topic : Bytes := []
  roomId : UInt64 := 0
  motion : Motion := {}
  deriving DecidableEq, Repr

structure StreamState extends Parse where
  buf : Bytes := []
  deriving DecidableEq, Repr

/-- What the handlers work on: the tables of the bridge, the cores, and what was written to streams so far. -/
structure Tables (K : Type) where
  topicToRoom : OrderedMap Bytes UInt64 := .empty
  delivery : OrderedMap UInt64 (Cnx × StreamId) := .empty
  core : K
  sent : List (Cnx × StreamId × Bytes) := []

structure BridgeState (K : Type) extends Tables K where
  streams : OrderedMap (Cnx × StreamId) StreamState := .empty

/-- A call that the parser makes to a handler, with its arguments. -/
inductive Call where
  | handleSub (topic : Bytes)
  | handleSketchSub (topic : Bytes)
  | handleSketchFrame (roomId : UInt64) (frame : Bytes)
  | handlePub (topic payload : Bytes)
  | handleZoneSub
  | handleZonePub (motion : Motion) (payload : Bytes)
  deriving DecidableEq, Repr

section Handlers
variable {K : Type} (core : Core K) (cnx : Cnx) (streamId : StreamId)

/-! ### Handlers -/

def getOrCreateRoom (topic : Bytes) (state : Tables K) : UInt64 × Tables K :=
  match state.topicToRoom.find? topic with
  | some roomId => (roomId, state)
  | none =>
    let (res, k) := core.allocRoom state.core
    let roomId := res.getD sentinel
    if roomId ≠ sentinel then (roomId, { state with topicToRoom := state.topicToRoom.set topic roomId, core := k })
    else (roomId, { state with core := k })

/-- Enter the room, with this stream as the one that deliveries go to. -/
def joinRoom (roomId : UInt64) (state : Tables K) : Tables K :=
  { state with
    delivery := state.delivery.set (connIdOf cnx) (cnx, streamId)
    core := core.sub roomId (connIdOf cnx) state.core }

def handleSub (topic : Bytes) (state : Tables K) : Tables K :=
  let (roomId, state) := getOrCreateRoom core topic state
  if roomId = sentinel then state else joinRoom core cnx streamId roomId state

def lenPrefix (n : Nat) : Bytes :=
  [UInt8.ofNat n, UInt8.ofNat (n / 2 ^ 8), UInt8.ofNat (n / 2 ^ 16), UInt8.ofNat (n / 2 ^ 24)]

/-- Subscribe, then replay the room's history. The room is stored on the stream only when there is one. -/
def handleSketchSub (stream : Parse) (state : Tables K) : Tables K × Parse :=
  let (roomId, state) := getOrCreateRoom core stream.topic state
  if roomId = sentinel then (state, stream)
  else
    let state := joinRoom core cnx streamId roomId state
    let replay := (core.history roomId state.core).flatMap fun packet =>
      [(cnx, streamId, lenPrefix packet.length), (cnx, streamId, packet)]
    ({ state with sent := state.sent ++ replay }, { stream with roomId := roomId })

/-- Write packets to the delivery stream of every target that has one. -/
def relay (targets : List UInt64) (packets : List Bytes) (state : Tables K) : Tables K :=
  let writes := targets.flatMap fun target =>
    match state.delivery.find? target with
    | none => []
    | some (cnx, streamId) => packets.map fun packet => (cnx, streamId, packet)
  { state with sent := state.sent ++ writes }

def handleSketchFrame (roomId : UInt64) (frame : Bytes) (state : Tables K) : Tables K :=
  let (fresh, k) := core.applyPacket roomId frame state.core
  let state := { state with core := k }
  if fresh then
    match core.pubTargets roomId (connIdOf cnx) state.core with
    | none => state
    | some targets => relay targets [lenPrefix frame.length, frame] state
  else state

def handlePub (topic payload : Bytes) (state : Tables K) : Tables K :=
  let (roomId, state) := getOrCreateRoom core topic state
  if roomId = sentinel then state
  else match core.pubTargets roomId (connIdOf cnx) state.core with
    | none => state
    | some targets => relay targets [payload] state

def handleZoneSub (state : Tables K) : Tables K :=
  { state with delivery := state.delivery.set (connIdOf cnx) (cnx, streamId) }

def kSimTickMicros : UInt64 := 50000

def rttToTicks (k : K) : UInt64 := (core.getRtt cnx k + kSimTickMicros - 1) / kSimTickMicros

def handleZonePub (m : Motion) (payload : Bytes) (state : Tables K) : Tables K :=
  let connId := connIdOf cnx
  let rttTicks := rttToTicks core cnx state.core
  let state := { state with
    core := core.entityMoveV connId m.x m.y m.z (absMagnitude m.vx) (absMagnitude m.vy) (absMagnitude m.vz) rttTicks
      state.core }
  match core.zoneTargets connId m.x m.y m.z state.core with
  | none => state
  | some targets => relay targets [payload] state

def cleanupStream (stream : Parse) (state : Tables K) : Tables K :=
  let connId := connIdOf cnx
  let state :=
    if state.delivery.find? connId = some (cnx, streamId) then { state with delivery := state.delivery.erase connId }
    else state
  if stream.isZonePub then { state with core := core.entityRemove connId state.core }
  else if stream.headerParsed && !stream.isPub then
    match state.topicToRoom.find? stream.topic with
    | none => state
    | some roomId => { state with core := core.unsub roomId connId state.core }
  else state

/-! ### The parser of a stream -/

def kEntityPacketSize : Nat := 100
def kMaxSketchFrame : Nat := 2 ^ 20

def subVerb : Bytes := ascii ['S', 'U', 'B']
def pubVerb : Bytes := ascii ['P', 'U', 'B']
def skbVerb : Bytes := ascii ['S', 'K', 'B']
def zpbVerb : Bytes := ascii ['Z', 'P', 'B']

/-- A header line of the given verb and topic. A `halt` is a return that leaves bytes in the buffer which the next
    call looks at. -/
def pumpHeader (verb topic : Bytes) (state : Tables K) (stream : Parse) (rest : Bytes) :
    Round (Tables K × Parse) UInt8 Call :=
  let stream := { stream with topic := topic, headerParsed := true }
  if verb = subVerb then .go (handleSub core cnx streamId topic state, { stream with isPub := false }) rest [.handleSub topic]
  else if verb = pubVerb then .go (state, { stream with isPub := true }) rest []
  else if verb = skbVerb then
    .go (handleSketchSub core cnx streamId { stream with isSketch := true } state) rest [.handleSketchSub topic]
  else if verb = zpbVerb then
    let (wellFormed, motion) := parseZpbFields topic stream.motion
    let stream := { stream with motion := motion }
    if wellFormed then .go (handleZoneSub cnx streamId state, { stream with isZonePub := true }) rest [.handleZoneSub]
    else .halt (state, stream) rest
  else .halt (state, stream) rest

/-- The length of the frame at the front of the buffer. -/
def frameLen : Bytes → Option Nat
  | b₀ :: b₁ :: b₂ :: b₃ :: _ => some (b₀.toNat + b₁.toNat * 2 ^ 8 + b₂.toNat * 2 ^ 16 + b₃.toNat * 2 ^ 24)
  | _ => none

/-- One turn of the loop of `pumpStream`. -/
def pumpRound (s : Tables K × Parse) (buf : Bytes) : Round (Tables K × Parse) UInt8 Call :=
  let (state, stream) := s
  if !stream.headerParsed then
    match cutAt newline buf with
    | none => .wait
    | some (header, rest) =>
      match cutAt space header with
      | none => .halt s rest
      | some (verb, topic) => pumpHeader core cnx streamId verb topic state stream rest
  else if stream.isSketch then
    match frameLen buf with
    | none => .wait
    | some n =>
      if n > kMaxSketchFrame then .wait
      else if buf.length < 4 + n then .wait
      else
        let frame := (buf.drop 4).take n
        .go (handleSketchFrame core cnx stream.roomId frame state, stream) (buf.drop (4 + n))
          [.handleSketchFrame stream.roomId frame]
  else if stream.isPub then
    if buf.length < kEntityPacketSize then .wait
    else
      let payload := buf.take kEntityPacketSize
      .go (handlePub core cnx stream.topic payload state, { stream with headerParsed := false })
        (buf.drop kEntityPacketSize) [.handlePub stream.topic payload]
  else if stream.isZonePub then
    if buf.length < kEntityPacketSize then .wait
    else
      let payload := buf.take kEntityPacketSize
      .go (handleZonePub core cnx stream.motion payload state, { stream with headerParsed := false })
        (buf.drop kEntityPacketSize) [.handleZonePub stream.motion payload]
  else .wait

/-- Every turn that does not return consumes a byte, so there are at most as many as the buffer is long. -/
def pumpStream (state : Tables K) (stream : StreamState) : Tables K × StreamState × List Call :=
  let (s, buf, calls) := drain (pumpRound core cnx streamId) stream.buf.length (state, stream.toParse) stream.buf
  (s.1, { s.2 with buf := buf }, calls)

end Handlers

/-! ### Stream events -/

inductive Event where
  | streamData (cnx : Cnx) (streamId : StreamId) (bytes : Bytes)
  | streamFin (cnx : Cnx) (streamId : StreamId) (bytes : Bytes)
  | streamReset (cnx : Cnx) (streamId : StreamId)
  /-- Also the close by the application. -/
  | close (cnx : Cnx)
  | other
  deriving DecidableEq, Repr

section Callback
variable {K : Type} (core : Core K)

def receive (cnx : Cnx) (streamId : StreamId) (bytes : Bytes) (state : BridgeState K) : BridgeState K × List Call :=
  let stream := (state.streams.find? (cnx, streamId)).getD {}
  let (tables, stream, calls) := pumpStream core cnx streamId state.toTables { stream with buf := stream.buf ++ bytes }
  ({ tables with streams := state.streams.set (cnx, streamId) stream }, calls)

/-- Clean up a stream and forget it. -/
def finish (cnx : Cnx) (streamId : StreamId) (state : BridgeState K) : BridgeState K :=
  match state.streams.find? (cnx, streamId) with
  | none => state
  | some stream =>
    { cleanupStream core cnx streamId stream.toParse state.toTables with
      streams := state.streams.erase (cnx, streamId) }

/-- The new state, and the calls that the parser made. -/
def fanoutStreamCallback (event : Event) (state : BridgeState K) : BridgeState K × List Call :=
  match event with
  | .streamData cnx streamId bytes => receive core cnx streamId bytes state
  | .streamFin cnx streamId bytes =>
    let (state, calls) := receive core cnx streamId bytes state
    (finish core cnx streamId state, calls)
  | .streamReset cnx streamId => (finish core cnx streamId state, [])
  | .close cnx =>
    let open' := state.streams.entries.filter fun entry => entry.1.1 = cnx
    let tables := open'.foldl
      (fun tables entry => cleanupStream core cnx entry.1.2 entry.2.toParse tables) state.toTables
    ({ tables with streams := state.streams.filter fun key => key.1 ≠ cnx }, [])
  | .other => (state, [])

end Callback
end WeftWarp.Fanout
