import WeftWarp.Theorems.FanoutPackets

/-! What becomes of the payloads of `PUB` and `ZPB` messages on one stream.

    `isPub` is set by a `PUB` header and is not reset by a `ZPB` header, and it is looked at first. So a zone payload
    reaches its handler exactly when no `PUB` came before it on the stream. -/

namespace WeftWarp.Fanout

open Feed

/-! ### Messages -/

/-- A well-formed header line. -/
inductive Header where
  | pub (topic : Bytes) (line : newline ∉ topic)
  | zpb (fields : Bytes) (line : newline ∉ fields) (wellFormed : (parseZpbFields fields {}).1 = true)

namespace Header

/-- The header is a `PUB`. -/
def isPub : Header → Bool
  | .pub .. => true
  | .zpb .. => false

/-- The header as it is sent. -/
def bytes : Header → Bytes
  | .pub topic _ => pubVerb ++ space :: topic ++ [newline]
  | .zpb fields _ _ => zpbVerb ++ space :: fields ++ [newline]

end Header

/-- A header and a payload of the right size. -/
structure Message where
  header : Header
  payload : Bytes
  complete : payload.length = kEntityPacketSize

namespace Message

/-- The message as it is sent. -/
def bytes (m : Message) : Bytes := m.header.bytes ++ m.payload

/-- The calls that the header's verb asks for. -/
def calls (m : Message) : List Call :=
  match m.header with
  | .pub topic _ => [.handlePub topic m.payload]
  | .zpb fields _ _ => [.handleZoneSub, .handleZonePub (parseZpbFields fields {}).2 m.payload]

/-- The calls made when a `PUB` has come before on the stream, or none has. -/
def callsAfter (pub : Bool) (m : Message) : List Call :=
  match m.header with
  | .pub topic _ => [.handlePub topic m.payload]
  | .zpb fields _ _ =>
    [.handleZoneSub, if pub then .handlePub fields m.payload else .handleZonePub (parseZpbFields fields {}).2 m.payload]

theorem callsAfter_false (m : Message) : m.callsAfter false = m.calls := by
  obtain ⟨_ | _, payload, complete⟩ := m <;> rfl

theorem length_callsAfter (pub : Bool) (m : Message) : (m.callsAfter pub).length = m.calls.length := by
  obtain ⟨_ | _, payload, complete⟩ := m <;> rfl

theorem callsAfter_true_iff (m : Message) : m.callsAfter true = m.calls ↔ m.header.isPub = true := by
  obtain ⟨_ | _, payload, complete⟩ := m <;> simp [callsAfter, calls, Header.isPub]

end Message

/-- The calls for messages, by what came before. -/
def callsOf : Bool → List Message → List Call
  | _, [] => []
  | pub, m :: messages => m.callsAfter pub ++ callsOf (pub || m.header.isPub) messages

/-- No message that is not a `PUB` comes after one that is. -/
def ZonesFirst (messages : List Message) : Prop :=
  messages.Pairwise fun m later => m.header.isPub = true → later.header.isPub = true

theorem callsOf_cons_eq_iff {pub : Bool} {m : Message} {messages : List Message} :
    callsOf pub (m :: messages) = (m :: messages).flatMap Message.calls ↔
      m.callsAfter pub = m.calls ∧ callsOf (pub || m.header.isPub) messages = messages.flatMap Message.calls := by
  rw [callsOf, List.flatMap_cons]
  constructor
  · exact fun same => List.append_inj same (m.length_callsAfter pub)
  · rintro ⟨first, later⟩
    rw [first, later]

theorem callsOf_true_iff : ∀ messages : List Message,
    callsOf true messages = messages.flatMap Message.calls ↔ ∀ m ∈ messages, m.header.isPub = true
  | [] => by simp [callsOf]
  | m :: messages => by
    rw [callsOf_cons_eq_iff, m.callsAfter_true_iff, Bool.true_or, callsOf_true_iff messages, List.forall_mem_cons]

theorem callsOf_false_iff : ∀ messages : List Message,
    callsOf false messages = messages.flatMap Message.calls ↔ ZonesFirst messages
  | [] => by simp [callsOf, ZonesFirst]
  | m :: messages => by
    rw [callsOf_cons_eq_iff, ZonesFirst, List.pairwise_cons, Bool.false_or]
    cases pub : m.header.isPub with
    | true =>
      rw [callsOf_true_iff]
      constructor
      · rintro ⟨-, later⟩
        refine ⟨fun m' mem _ => later m' mem, ?_⟩
        exact List.pairwise_of_forall_mem_list fun a _ b mem _ => later b mem
      · rintro ⟨later, -⟩
        exact ⟨m.callsAfter_false, fun m' mem => later m' mem rfl⟩
    | false =>
      rw [callsOf_false_iff messages]
      constructor
      · rintro ⟨-, later⟩
        exact ⟨fun _ _ on => absurd on (by decide), later⟩
      · rintro ⟨-, later⟩
        exact ⟨m.callsAfter_false, later⟩

/-! ### The fields of a `ZPB` header -/

/-- Well-formed fields write the values they hold, one after the other. -/
theorem parseZpbLoop_values (m : Motion) : ∀ (fields : List (Int64 → Motion → Motion)) (p : Bytes),
    (parseZpbLoop fields p m).1 = true → ∃ values : List Int64, values.length = fields.length ∧
      ∀ m, (parseZpbLoop fields p m).2 = (List.zipWith (fun write v => write v) fields values).foldl (fun m f => f m) m
  | [], _ => fun _ => ⟨[], rfl, fun _ => rfl⟩
  | write :: fields, p => by
    intro wellFormed
    simp only [parseZpbLoop] at wellFormed ⊢
    cases chars : fromChars p with
    | none => simp [chars] at wellFormed
    | some r =>
      obtain ⟨v, q⟩ := r
      simp only [chars] at wellFormed ⊢
      cases fields with
      | nil => exact ⟨[v], rfl, fun _ => rfl⟩
      | cons write' fields =>
        simp only [List.isEmpty_cons, Bool.false_eq_true, if_false] at wellFormed ⊢
        cases q with
        | nil => cases wellFormed
        | cons b p' =>
          by_cases sep : b = space
          · simp only [sep, if_true] at wellFormed ⊢
            rw [parseZpbLoop_fst _ m] at wellFormed
            obtain ⟨values, length, writes⟩ := parseZpbLoop_values m (write' :: fields) p' wellFormed
            refine ⟨v :: values, by rw [List.length_cons, length]; rfl, fun m' => ?_⟩
            rw [writes, List.zipWith_cons_cons, List.foldl_cons]
          · simp only [sep, if_false] at wellFormed
            cases wellFormed

/-- Well-formed fields leave nothing of an earlier motion. -/
theorem parseZpbFields_snd {fields : Bytes} (wellFormed : (parseZpbFields fields {}).1 = true) (m : Motion) :
    (parseZpbFields fields m).2 = (parseZpbFields fields {}).2 := by
  obtain ⟨values, length, writes⟩ := parseZpbLoop_values {} zpbFields fields wellFormed
  rw [parseZpbFields, parseZpbFields, writes, writes]
  match values, length with
  | [x, y, z, vx, vy, vz], _ => rfl

/-! ### Messages on a stream -/

section Stream
variable {K : Type} (core : Core K) (cnx : Cnx) (streamId : StreamId)

theorem consumes_two {s s₁ s₂ : Tables K × Parse} {header payload : Bytes} {out out' : List (Option Call)}
    (first : Turn core cnx streamId s header out s₁) (second : Turn core cnx streamId s₁ payload out' s₂) (rest : Bytes) :
    Consumes (pumpRound core cnx streamId) s (header ++ payload ++ rest) (out ++ out') s₂ rest := by
  have tail := Consumes.round (second.next rest) (.refl s₂ rest)
  rw [List.append_nil] at tail
  rw [List.append_assoc]
  exact .round (first.next _) tail

/-- A message is consumed whole, with the calls that the flag `isPub` makes of it. -/
theorem consumes_message (m : Message) (state : Tables K) (stream : Parse) (mode : stream.headerParsed = false)
    (sketch : stream.isSketch = false) (rest : Bytes) :
    ∃ state' stream', Consumes (pumpRound core cnx streamId) (state, stream) (m.bytes ++ rest)
        ((m.callsAfter stream.isPub).map some) (state', stream') rest ∧
      stream'.headerParsed = false ∧ stream'.isSketch = false ∧
      stream'.isPub = (stream.isPub || m.header.isPub) := by
  obtain ⟨header, payload, complete⟩ := m
  cases header with
  | pub topic line =>
    have first : Turn core cnx streamId (state, stream) (pubVerb ++ space :: topic ++ [newline]) [] _ :=
      .header mode (by decide) (notMem_header (by decide) line) .pub
    have second : Turn core cnx streamId (state, { stream with topic := topic, headerParsed := true, isPub := true })
        payload [some (.handlePub topic payload)] _ := .pub rfl sketch rfl complete
    exact ⟨_, _, consumes_two core cnx streamId first second rest, rfl, sketch, (Bool.or_true _).symm⟩
  | zpb fields line wellFormed =>
    have first : Turn core cnx streamId (state, stream) (zpbVerb ++ space :: fields ++ [newline])
        [some .handleZoneSub] _ := .header mode (by decide) (notMem_header (by decide) line) (.zpb wellFormed)
    rw [parseZpbFields_snd wellFormed] at first
    rcases Bool.eq_false_or_eq_true stream.isPub with pub | pub
    · have second : Turn core cnx streamId (handleZoneSub cnx streamId state, { stream with
          topic := fields, headerParsed := true, motion := (parseZpbFields fields {}).2, isZonePub := true })
          payload [some (.handlePub fields payload)] _ := .pub rfl sketch pub complete
      have calls : (Message.callsAfter stream.isPub ⟨.zpb fields line wellFormed, payload, complete⟩) =
          [.handleZoneSub, .handlePub fields payload] := by rw [pub]; rfl
      rw [calls]
      exact ⟨_, _, consumes_two core cnx streamId first second rest, rfl, sketch, (Bool.or_false _).symm⟩
    · have second : Turn core cnx streamId (handleZoneSub cnx streamId state, { stream with
          topic := fields, headerParsed := true, motion := (parseZpbFields fields {}).2, isZonePub := true })
          payload [some (.handleZonePub (parseZpbFields fields {}).2 payload)] _ := .zone rfl sketch pub rfl complete
      have calls : (Message.callsAfter stream.isPub ⟨.zpb fields line wellFormed, payload, complete⟩) =
          [.handleZoneSub, .handleZonePub (parseZpbFields fields {}).2 payload] := by rw [pub]; rfl
      rw [calls]
      exact ⟨_, _, consumes_two core cnx streamId first second rest, rfl, sketch, (Bool.or_false _).symm⟩

theorem consumes_messages : ∀ (messages : List Message) (state : Tables K) (stream : Parse),
    stream.headerParsed = false → stream.isSketch = false →
    ∃ s', Consumes (pumpRound core cnx streamId) (state, stream) (messages.flatMap Message.bytes)
      ((callsOf stream.isPub messages).map some) s' []
  | [], state, stream => fun _ _ => ⟨(state, stream), .refl _ _⟩
  | m :: messages, state, stream => by
    intro mode sketch
    obtain ⟨state', stream', first, mode', sketch', pub⟩ := consumes_message core cnx streamId m state stream mode sketch
      (messages.flatMap Message.bytes)
    obtain ⟨s', later⟩ := consumes_messages messages state' stream' mode' sketch'
    rw [pub] at later
    refine ⟨s', ?_⟩
    rw [List.flatMap_cons, callsOf, List.map_append]
    exact first.trans later

theorem received_messages (state : BridgeState K) (fresh : state.streams.find? (cnx, streamId) = none)
    (messages : List Message) {cut : List Bytes} (flat : cut.flatten = messages.flatMap Message.bytes) :
    received core cnx streamId cut state = callsOf false messages := by
  have inc := incremental core cnx streamId
  obtain ⟨s', consumes⟩ := consumes_messages core cnx streamId messages state.toTables {} rfl rfl
  rw [received_eq_feed cut state {} (by rw [fresh]; rfl),
    inc.labels_of_silent consumes (inc.waits_nil s') (.of_noHalt (by simp)) flat, reduceOption_map_some]

/-- However the messages are cut, the calls are those that the verbs ask for exactly when no `ZPB` comes after a
    `PUB`. -/
theorem received_messages_eq_iff (state : BridgeState K) (fresh : state.streams.find? (cnx, streamId) = none)
    (messages : List Message) (cut : List Bytes) (flat : cut.flatten = messages.flatMap Message.bytes) :
    received core cnx streamId cut state = messages.flatMap Message.calls ↔ ZonesFirst messages := by
  rw [received_messages core cnx streamId state fresh messages flat, callsOf_false_iff]

end Stream

/-! ### A publication and a zone publication -/

/-- A payload of sevens. -/
def samplePayload : Bytes := List.replicate kEntityPacketSize 7

theorem length_samplePayload : samplePayload.length = kEntityPacketSize := List.length_replicate

/-- Fields of a motion. -/
def sampleFields : Bytes := ascii ['1', ' ', '2', ' ', '3', ' ', '4', ' ', '-', '5', ' ', '6']

theorem newline_notMem_t : newline ∉ ascii ['t'] := by decide

/-- A publication. -/
def samplePub : Message := ⟨.pub (ascii ['t']) newline_notMem_t, samplePayload, length_samplePayload⟩

/-- A motion. -/
def sampleZpb : Message := ⟨.zpb sampleFields (by decide) (by decide +kernel), samplePayload, length_samplePayload⟩

theorem received_zpb_then_pub :
    received listCore 1 0 [sampleZpb.bytes ++ samplePub.bytes] { core := {} } = sampleZpb.calls ++ samplePub.calls :=
  (received_messages_eq_iff listCore 1 0 { core := {} } rfl [sampleZpb, samplePub] _ (by simp)).mpr (by
    simp [ZonesFirst, sampleZpb, Header.isPub])

/-- After a `PUB`, the payload of a `ZPB` is published to the topic named like the position. -/
theorem received_pub_then_zpb :
    received listCore 1 0 [samplePub.bytes ++ sampleZpb.bytes] { core := {} } =
      [.handlePub (ascii ['t']) samplePayload, .handleZoneSub, .handlePub sampleFields samplePayload] := by
  decide +kernel

end WeftWarp.Fanout
