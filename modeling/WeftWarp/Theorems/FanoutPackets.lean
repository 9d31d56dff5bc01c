import WeftWarp.Theorems.FanoutRounds
import WeftWarp.Theorems.FanoutCore

/-! When the calls of a stream do not depend on how QUIC cuts its bytes into packets.

    The parser returns at a malformed header, but the next packet makes it look at what stands behind. So the calls
    are independent of the cut exactly when nothing behind the first malformed line leads to a call. -/

namespace WeftWarp.Fanout

open Feed

/-- The calls made while chunks arrive on one stream, one after the other. -/
def received {K : Type} (core : Core K) (cnx : Cnx) (streamId : StreamId) : List Bytes → BridgeState K → List Call
  | [], _ => []
  | chunk :: chunks, state =>
    let (state, calls) := fanoutStreamCallback core (.streamData cnx streamId chunk) state
    calls ++ received core cnx streamId chunks state

/-! ### The condition on the bytes -/

/-- Nothing here leads to a call when it stands behind a malformed line: a `PUB`, or a header that stops the parser
    while an earlier message has left a payload flag (`seen`), has no complete payload, and there is no other header. -/
def Mute (seen : Bool) (bytes : Bytes) : Prop :=
  match _cut : cutAt newline bytes with
  | none => True
  | some (line, rest) =>
    match cutAt space line with
    | none => Mute seen rest
    | some (verb, topic) =>
      if verb = pubVerb then rest.length < kEntityPacketSize
      else Stops verb topic ∧ (seen = true → rest.length < kEntityPacketSize)
termination_by bytes.length
decreasing_by exact length_lt_of_cutAt ‹_›

/-- Nothing that leads to a call stands behind the first malformed line. Before it come messages with their payloads;
    `seen` tells that there was one, and `zone` that one of them was a `ZPB`, after which even a `SUB` takes a payload. -/
def Steady (seen zone : Bool) (bytes : Bytes) : Prop :=
  match _cut : cutAt newline bytes with
  | none => True
  | some (line, rest) =>
    match cutAt space line with
    | none => Mute seen rest
    | some (verb, topic) =>
      if Stops verb topic then seen = true → rest.length < kEntityPacketSize
      else if verb = skbVerb ∨ verb = subVerb ∧ zone = false then True
      else rest.length < kEntityPacketSize ∨ Steady true (zone || verb = zpbVerb) (rest.drop kEntityPacketSize)
termination_by bytes.length
decreasing_by
  rw [List.length_drop]
  exact Nat.lt_of_le_of_lt (Nat.sub_le _ _) (length_lt_of_cutAt ‹_›)

section Packets
variable {K : Type} {core : Core K} {cnx : Cnx} {streamId : StreamId}
variable {state : Tables K} {stream : Parse} {bytes rest : Bytes}

/-! ### Where a payload is due -/

theorem payload_waits (mode : stream.headerParsed = true) (sketch : stream.isSketch = false)
    (short : (stream.isPub || stream.isZonePub) = true → rest.length < kEntityPacketSize) :
    Waits (pumpRound core cnx streamId) (state, stream) rest := by
  rw [Waits]
  rcases Bool.eq_false_or_eq_true stream.isPub with pub | pub
  · rw [pumpRound_pub mode sketch pub, if_pos (short (by rw [pub, Bool.true_or]))]
    rfl
  · rcases Bool.eq_false_or_eq_true stream.isZonePub with zone | zone
    · rw [pumpRound_zone mode sketch pub zone, if_pos (short (by rw [zone, Bool.or_true]))]
      rfl
    · rw [pumpRound_idle mode sketch pub zone]
      rfl

/-- With a payload flag set, a complete payload makes a call. -/
theorem payload_next (mode : stream.headerParsed = true) (sketch : stream.isSketch = false)
    (flag : (stream.isPub || stream.isZonePub) = true) (enough : kEntityPacketSize ≤ rest.length) :
    ∃ call state', (pumpRound core cnx streamId (state, stream) rest).next =
      some ((state', { stream with headerParsed := false }), rest.drop kEntityPacketSize, [some call]) := by
  rcases Bool.eq_false_or_eq_true stream.isPub with pub | pub
  · rw [pumpRound_pub mode sketch pub, if_neg (Nat.not_lt.mpr enough)]
    exact ⟨_, _, rfl⟩
  · rw [pub, Bool.false_or] at flag
    rw [pumpRound_zone mode sketch pub flag, if_neg (Nat.not_lt.mpr enough)]
    exact ⟨_, _, rfl⟩

theorem quiet_payload_iff (mode : stream.headerParsed = true) (sketch : stream.isSketch = false) :
    Quiet (pumpRound core cnx streamId) (state, stream) rest ↔
      ((stream.isPub || stream.isZonePub) = true → rest.length < kEntityPacketSize) := by
  constructor
  · intro quiet flag
    by_contra short
    obtain ⟨call, state', next⟩ := payload_next mode sketch flag (Nat.not_lt.mp short)
    cases ((quiet_iff next).mp quiet).1
  · exact fun short => (payload_waits mode sketch short).quiet

/-! ### Behind a malformed line -/

/-- A header with an action is heard, one that stops the parser leaves what earlier messages set. -/
theorem quiet_header_iff (sketch : stream.isSketch = false) {verb topic : Bytes} {out : List (Option Call)}
    {s' : Tables K × Parse} (turn : HeaderTurn core cnx streamId topic state stream verb out s') :
    out.reduceOption = [] ∧ Quiet (pumpRound core cnx streamId) s' rest ↔
      if verb = pubVerb then rest.length < kEntityPacketSize
      else Stops verb topic ∧ ((stream.isPub || stream.isZonePub) = true → rest.length < kEntityPacketSize) := by
  cases turn with
  | sub =>
    have other : subVerb ≠ pubVerb := by decide
    simp [other, Stops]
  | pub =>
    rw [quiet_payload_iff, if_pos rfl]
    · simp
    · rfl
    · exact sketch
  | skb =>
    have other : skbVerb ≠ pubVerb := by decide
    simp [other, Stops]
  | zpb wellFormed =>
    have other : zpbVerb ≠ pubVerb := by decide
    simp [other, Stops, wellFormed]
  | stop motion stops =>
    rw [quiet_payload_iff, if_neg stops.2.1]
    · simp [stops]
    · rfl
    · exact sketch

theorem quiet_iff_mute (header : stream.headerParsed = false) (sketch : stream.isSketch = false) :
    Quiet (pumpRound core cnx streamId) (state, stream) bytes ↔ Mute (stream.isPub || stream.isZonePub) bytes := by
  induction h : bytes.length using Nat.strongRecOn generalizing bytes with
  | _ n ih =>
    subst h
    rw [Mute]
    cases cut : cutAt newline bytes with
    | none =>
      have waits : Waits (pumpRound core cnx streamId) (state, stream) bytes := by
        rw [Waits, pumpRound_header header, cut]
        rfl
      exact ⟨fun _ => trivial, fun _ => waits.quiet⟩
    | some parts =>
      obtain ⟨line, rest⟩ := parts
      cases cut' : cutAt space line with
      | none =>
        have next : (pumpRound core cnx streamId (state, stream) bytes).next = some ((state, stream), rest, [none]) := by
          simp only [pumpRound_header header, cut, cut', Round.next]
        simp only [quiet_iff next, cut', ih _ (length_lt_of_cutAt cut) rfl]
        exact and_iff_right rfl
      | some words =>
        obtain ⟨verb, topic⟩ := words
        obtain ⟨out, s', turn⟩ := exists_headerTurn core cnx streamId verb topic state stream
        have next : (pumpRound core cnx streamId (state, stream) bytes).next = some (s', rest, out) := by
          simp only [pumpRound_header header, cut, cut', turn.next]
        simp only [quiet_iff next, cut', quiet_header_iff sketch turn]

/-! ### Up to the first malformed line -/

theorem unbroken_sketch (mode : stream.headerParsed = true) (sketch : stream.isSketch = true) :
    Unbroken (pumpRound core cnx streamId) (state, stream) rest := by
  intro items s' rest' consumes
  generalize start : (state, stream) = s at consumes
  refine .of_noHalt ?_
  induction consumes generalizing state with
  | refl => exact List.not_mem_nil
  | round next _ ih =>
    subst start
    obtain ⟨used, -, turn⟩ := turn_of_next next
    cases turn with
    | bare mode' => simp [mode] at mode'
    | header mode' => simp [mode] at mode'
    | frame => simpa using ih rfl
    | pub _ sketch' => simp [sketch] at sketch'
    | zone _ sketch' => simp [sketch] at sketch'

theorem unbroken_payload_iff (mode : stream.headerParsed = true) (sketch : stream.isSketch = false)
    (flag : (stream.isPub || stream.isZonePub) = true)
    (later : ∀ state', Unbroken (pumpRound core cnx streamId) (state', { stream with headerParsed := false })
        (rest.drop kEntityPacketSize) ↔
      Steady (stream.isPub || stream.isZonePub) stream.isZonePub (rest.drop kEntityPacketSize)) :
    Unbroken (pumpRound core cnx streamId) (state, stream) rest ↔
      rest.length < kEntityPacketSize ∨ Steady true stream.isZonePub (rest.drop kEntityPacketSize) := by
  by_cases short : rest.length < kEntityPacketSize
  · exact ⟨fun _ => .inl short, fun _ => (payload_waits mode sketch fun _ => short).unbroken⟩
  · obtain ⟨call, state', next⟩ := payload_next mode sketch flag (Nat.not_lt.mp short)
    rw [unbroken_iff next (by simp), later, flag]
    exact (or_iff_right short).symm

/-- A header: what stands behind it is dropped, is of a sketch or a subscription, or is a payload and the next header. -/
theorem unbroken_header_iff (sketch : stream.isSketch = false) {verb topic : Bytes} {out : List (Option Call)}
    {s' : Tables K × Parse} (turn : HeaderTurn core cnx streamId topic state stream verb out s')
    (next : (pumpRound core cnx streamId (state, stream) bytes).next = some (s', rest, out))
    (later : ∀ state' (stream' : Parse), stream'.headerParsed = false → stream'.isSketch = false →
      (Unbroken (pumpRound core cnx streamId) (state', stream') (rest.drop kEntityPacketSize) ↔
        Steady (stream'.isPub || stream'.isZonePub) stream'.isZonePub (rest.drop kEntityPacketSize))) :
    Unbroken (pumpRound core cnx streamId) (state, stream) bytes ↔
      if Stops verb topic then (stream.isPub || stream.isZonePub) = true → rest.length < kEntityPacketSize
      else if verb = skbVerb ∨ verb = subVerb ∧ stream.isZonePub = false then True
      else rest.length < kEntityPacketSize ∨
        Steady true (stream.isZonePub || verb = zpbVerb) (rest.drop kEntityPacketSize) := by
  have due (state : Tables K) (stream' : Parse) (mode : stream'.headerParsed = true)
      (sketch' : stream'.isSketch = false) (flag : (stream'.isPub || stream'.isZonePub) = true) :
      Unbroken (pumpRound core cnx streamId) (state, stream') rest ↔
        rest.length < kEntityPacketSize ∨ Steady true stream'.isZonePub (rest.drop kEntityPacketSize) :=
    unbroken_payload_iff mode sketch' flag fun _ => later _ _ rfl sketch'
  cases turn with
  | sub =>
    have other : subVerb ≠ skbVerb ∧ subVerb ≠ zpbVerb := by decide
    rw [unbroken_iff next (by simp), if_neg fun stops => stops.1 rfl]
    rcases Bool.eq_false_or_eq_true stream.isZonePub with zone | zone
    · rw [due _ { stream with topic := topic, headerParsed := true, isPub := false } rfl sketch zone]
      simp [other, zone]
    · simp only [zone, or_true, and_self, if_true, iff_true]
      refine (payload_waits ?_ ?_ ?_).unbroken
      · rfl
      · exact sketch
      · simp
  | pub =>
    have other : pubVerb ≠ skbVerb ∧ pubVerb ≠ subVerb ∧ pubVerb ≠ zpbVerb := by decide
    rw [unbroken_iff next (by simp), if_neg fun stops => stops.2.1 rfl,
      due _ { stream with topic := topic, headerParsed := true, isPub := true } rfl sketch rfl]
    simp [other]
  | skb =>
    rw [unbroken_iff next (by simp), if_neg fun stops => stops.2.2.1 rfl]
    simp only [true_or, if_true, iff_true]
    obtain ⟨roomId, joined⟩ := handleSketchSub_stream core cnx streamId
      { stream with topic := topic, headerParsed := true, isSketch := true } state
    generalize handleSketchSub core cnx streamId _ state = r at joined
    obtain ⟨state', stream'⟩ := r
    cases joined
    exact unbroken_sketch rfl rfl
  | zpb wellFormed =>
    have other : zpbVerb ≠ skbVerb ∧ zpbVerb ≠ subVerb := by decide
    rw [unbroken_iff next (by simp), if_neg fun stops => by simp [Stops, wellFormed] at stops,
      due _ { stream with topic := topic, headerParsed := true, motion := _, isZonePub := true } rfl sketch
        (Bool.or_true _)]
    simp [other]
  | stop motion stops =>
    rw [unbroken_halt_iff next, if_pos stops, quiet_payload_iff]
    · rfl
    · exact sketch

theorem unbroken_iff_steady (header : stream.headerParsed = false) (sketch : stream.isSketch = false) :
    Unbroken (pumpRound core cnx streamId) (state, stream) bytes ↔
      Steady (stream.isPub || stream.isZonePub) stream.isZonePub bytes := by
  induction h : bytes.length using Nat.strongRecOn generalizing bytes state stream with
  | _ n ih =>
    subst h
    rw [Steady]
    cases cut : cutAt newline bytes with
    | none =>
      have waits : Waits (pumpRound core cnx streamId) (state, stream) bytes := by
        rw [Waits, pumpRound_header header, cut]
        rfl
      exact ⟨fun _ => trivial, fun _ => waits.unbroken⟩
    | some parts =>
      obtain ⟨line, rest⟩ := parts
      have shorter : (rest.drop kEntityPacketSize).length < bytes.length := by
        rw [List.length_drop]
        exact Nat.lt_of_le_of_lt (Nat.sub_le _ _) (length_lt_of_cutAt cut)
      cases cut' : cutAt space line with
      | none =>
        have next : (pumpRound core cnx streamId (state, stream) bytes).next = some ((state, stream), rest, [none]) := by
          simp only [pumpRound_header header, cut, cut', Round.next]
        simp only [unbroken_halt_iff next, cut', quiet_iff_mute header sketch]
      | some words =>
        obtain ⟨verb, topic⟩ := words
        obtain ⟨out, s', turn⟩ := exists_headerTurn core cnx streamId verb topic state stream
        have next : (pumpRound core cnx streamId (state, stream) bytes).next = some (s', rest, out) := by
          simp only [pumpRound_header header, cut, cut', turn.next]
        simp only [cut']
        exact unbroken_header_iff sketch turn next fun state' stream' mode sketch' => ih _ shorter mode sketch' rfl

/-! ### Consecutive packets -/

theorem received_eq_feed : ∀ (chunks : List Bytes) (state : BridgeState K) (stream : StreamState),
    (state.streams.find? (cnx, streamId)).getD {} = stream →
    received core cnx streamId chunks state =
      (feed (pumpRound core cnx streamId) (state.toTables, stream.toParse) stream.buf chunks).2.2
  | [], _, _, _ => rfl
  | chunk :: chunks, state, stream, found => by
    rw [received, feed]
    simp only [fanoutStreamCallback, receive, found, pumpStream]
    rw [received_eq_feed chunks _ _ rfl]
    simp

/-- On a fresh stream the calls are the same for every way of cutting the bytes exactly when the bytes are steady. -/
theorem received_eq_iff_steady (core : Core K) (cnx : Cnx) (streamId : StreamId) (state : BridgeState K)
    (fresh : state.streams.find? (cnx, streamId) = none) (bytes : Bytes) :
    (∀ cut cut' : List Bytes, cut.flatten = bytes → cut'.flatten = bytes →
        received core cnx streamId cut state = received core cnx streamId cut' state) ↔ Steady false false bytes := by
  have calls (chunks : List Bytes) : received core cnx streamId chunks state =
      (feed (pumpRound core cnx streamId) (state.toTables, {}) [] chunks).2.2 :=
    received_eq_feed chunks state {} (by rw [fresh]; rfl)
  simp only [calls]
  rw [(incremental core cnx streamId).feed_eq_iff, unbroken_iff_steady rfl rfl]
  rfl

/-- A publication makes the same call in one piece or byte by byte. -/
theorem received_eq_iff_steady_publication :
    let bytes := ascii ['P', 'U', 'B', ' ', 't', '\n'] ++ List.replicate 100 7
    ∀ cut : List Bytes, cut.flatten = bytes →
      received listCore 1 0 cut { core := {} } = received listCore 1 0 [bytes] { core := {} } := by
  intro bytes cut whole
  have line : cutAt newline bytes = some (ascii ['P', 'U', 'B', ' ', 't'], List.replicate 100 7) := by decide +kernel
  have words : cutAt space (ascii ['P', 'U', 'B', ' ', 't']) = some (ascii ['P', 'U', 'B'], ascii ['t']) := by decide
  have steady : Steady false false bytes := by
    unfold Steady
    split
    · trivial
    · rename_i cut
      obtain ⟨rfl, rfl⟩ := Prod.mk.inj (Option.some.inj (line.symm.trans cut))
      rw [words]
      dsimp only
      rw [if_neg (by decide), if_neg (by decide)]
      right
      -- nothing is left behind the payload
      unfold Steady
      trivial
  exact (received_eq_iff_steady listCore 1 0 { core := {} } rfl bytes).mpr steady cut [bytes] whole (by simp)

/-- Behind a line without a space, a subscription is dropped when both arrive in one packet, and taken when they
    arrive in two. -/
theorem received_malformed_then_sub :
    let bad := ascii ['B', 'A', 'D', '\n']
    let sub := ascii ['S', 'U', 'B', ' ', 't', '\n']
    received listCore 1 0 [bad ++ sub] { core := {} } = [] ∧
      received listCore 1 0 [bad, sub] { core := {} } = [.handleSub (ascii ['t'])] := by
  decide +kernel

end Packets
end WeftWarp.Fanout
