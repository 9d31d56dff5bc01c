import Mathlib.Data.List.Infix
import WeftWarp.LoadClient
import WeftWarp.Theorems.FanoutFraming
import WeftWarp.Theorems.FanoutVerbs

/-! Every tick of a player reaches the server once.

    Players and server make up a world: a player handles a callback and may write, some more of what it has written
    arrives at the server in order, the server sees a connection close, or something happens on a stream that is no
    player's. Whatever the order of these and however the bytes are cut, the parser of a player's stream publishes the
    ticks of the player in order, each once and with its position and payload, and nothing else. -/

namespace WeftWarp.LoadClient

open Fanout Feed

/-! ### Decimal texts -/

theorem toUInt8_digit {c : Char} (digit : c.isDigit = true) : isDigit c.toUInt8 = true ∧ c.toUInt8.toNat = c.toNat := by
  have bounds : 48 ≤ c.toNat ∧ c.toNat ≤ 57 := by
    simp only [Char.isDigit, Bool.and_eq_true, decide_eq_true_eq, ge_iff_le, UInt32.le_iff_toNat_le] at digit
    exact digit
  have value : c.toUInt8.toNat = c.toNat := by
    rw [Char.toUInt8]
    change c.toNat % 256 = c.toNat
    omega
  refine ⟨?_, value⟩
  simp only [isDigit, Bool.and_eq_true, decide_eq_true_eq, UInt8.le_iff_toNat_le, value]
  exact bounds

theorem decimal_ascii {digits : List Char} (all : ∀ c ∈ digits, c.isDigit = true) :
    decimal (ascii digits) = Nat.ofDigitChars 10 digits 0 := by
  rw [decimal, ascii, List.foldl_map, Nat.ofDigitChars_eq_foldl]
  generalize 0 = n
  induction digits generalizing n with
  | nil => rfl
  | cons c digits ih =>
    obtain ⟨here, later⟩ := List.forall_mem_cons.mp all
    rw [List.foldl_cons, List.foldl_cons, (toUInt8_digit here).2, ih later]
    rfl

theorem isDigit_repr (n : Nat) : ∀ c ∈ n.repr.toList, c.isDigit = true := by
  intro c mem
  rw [Nat.toList_repr] at mem
  exact Nat.isDigit_of_mem_toDigits (by decide) (by decide) mem

theorem decimal_repr (n : Nat) : decimal (ascii n.repr.toList) = n := by
  rw [decimal_ascii (isDigit_repr n), Nat.toList_repr]
  exact Nat.ofDigitChars_toDigits (by decide) (by decide)

theorem digits_repr (n : Nat) : ∀ b ∈ ascii n.repr.toList, isDigit b = true :=
  List.forall_mem_map.mpr fun c mem => (toUInt8_digit (isDigit_repr n c mem)).1

theorem repr_ne_nil (n : Nat) : ascii n.repr.toList ≠ [] := by
  rw [ascii, ne_eq, List.map_eq_nil_iff, Nat.toList_repr]
  exact Nat.toDigits_ne_nil

/-- What stands behind a number: nothing, or a space. -/
def Behind (rest : Bytes) : Prop := rest = [] ∨ rest.head? = some space

theorem takeWhile_digits {digits rest : Bytes} (all : ∀ b ∈ digits, isDigit b = true) (behind : Behind rest) :
    (digits ++ rest).takeWhile isDigit = digits ∧ (digits ++ rest).dropWhile isDigit = rest := by
  have stops : rest.takeWhile isDigit = [] ∧ rest.dropWhile isDigit = rest := by
    rcases behind with rfl | sep
    · exact ⟨rfl, rfl⟩
    · cases rest with
      | nil => cases sep
      | cons b rest =>
        cases sep
        exact ⟨rfl, rfl⟩
  rw [List.takeWhile_append_of_pos all, List.dropWhile_append_of_pos all, stops.1, stops.2, List.append_nil]
  exact ⟨rfl, rfl⟩

theorem toText_ofNat (n : Nat) : toText (.ofNat n) = ascii n.repr.toList := rfl

theorem toText_negSucc (n : Nat) : toText (.negSucc n) = minus :: ascii (n + 1).repr.toList := by
  rw [toText, Int.toString_eq_repr, Int.repr, String.toList_append]
  rfl

/-- Numbers that fit into the fields of a position. -/
def Fits (n : Int) : Prop := -2 ^ 63 ≤ n ∧ n < 2 ^ 63

/-- A number that was written in decimal is read back. -/
theorem fromChars_toText {n : Int} (fits : Fits n) {rest : Bytes} (behind : Behind rest) :
    fromChars (toText n ++ rest) = some (Int64.ofInt n, rest) := by
  cases n with
  | ofNat n =>
    obtain ⟨taken, dropped⟩ := takeWhile_digits (digits_repr n) behind
    have noMinus : ¬ (ascii n.repr.toList ++ rest).head? = some minus := by
      cases text : ascii n.repr.toList with
      | nil => exact absurd text (repr_ne_nil n)
      | cons b digits =>
        have digit := digits_repr n b (text ▸ List.mem_cons_self)
        rintro same
        cases same
        exact absurd digit (by decide)
    simp only [toText_ofNat, fromChars, noMinus, if_false, taken, dropped, repr_ne_nil, decimal_repr]
    exact if_pos fits
  | negSucc n =>
    obtain ⟨taken, dropped⟩ := takeWhile_digits (digits_repr (n + 1)) behind
    simp only [toText_negSucc, List.cons_append, fromChars, List.head?_cons, if_true, List.tail_cons, taken, dropped,
      repr_ne_nil, decimal_repr, if_false]
    exact if_pos fits

/-! ### One tick -/

/-- Behind the verb of the header of a tick: the position, and no velocity. -/
def tickFields (playerId tick : Int) : Bytes :=
  toText playerId ++ space :: (toText tick ++ space :: (toText 0 ++ space :: (toText 0 ++ space :: (toText 0 ++
    space :: toText 0))))

/-- The motion of a tick. -/
def tickMotion (playerId tick : Int) : Motion := { x := Int64.ofInt playerId, y := Int64.ofInt tick }

/-- What the server does with a tick. -/
def tickCalls (playerId tick : Int) : List Call :=
  [.handleZoneSub, .handleZonePub (tickMotion playerId tick) (makePayload playerId tick)]

theorem zpbHeader_eq (playerId tick : Int) :
    zpbHeader playerId tick = zpbVerb ++ space :: tickFields playerId tick ++ [newline] := by
  have zero : toText 0 = ascii ['0'] := by decide
  simp only [zpbHeader, tickFields, zero, List.append_assoc, List.cons_append]
  rfl

theorem length_makePayload (playerId tick : Int) : (makePayload playerId tick).length = kEntityPacketSize := by
  rw [makePayload, List.length_map, List.length_range]

theorem parseZpbLoop_toText {n : Int} (fits : Fits n) (write write' : Int64 → Motion → Motion)
    (fields : List (Int64 → Motion → Motion)) (p : Bytes) (m : Motion) :
    parseZpbLoop (write :: write' :: fields) (toText n ++ space :: p) m =
      parseZpbLoop (write' :: fields) p (write (Int64.ofInt n) m) := by
  rw [parseZpbLoop, fromChars_toText fits (.inr rfl)]
  rfl

theorem parseZpbLoop_last {n : Int} (fits : Fits n) (write : Int64 → Motion → Motion) (m : Motion) :
    parseZpbLoop [write] (toText n) m = (true, write (Int64.ofInt n) m) := by
  have read : fromChars (toText n ++ []) = _ := fromChars_toText fits (.inl rfl)
  rw [List.append_nil] at read
  rw [parseZpbLoop, read]
  rfl

theorem parseZpbFields_tick {playerId tick : Int} (id : Fits playerId) (fits : Fits tick) (m : Motion) :
    parseZpbFields (tickFields playerId tick) m = (true, tickMotion playerId tick) := by
  have zero : Fits 0 := ⟨by decide, by decide⟩
  rw [parseZpbFields, zpbFields, tickFields, parseZpbLoop_toText id, parseZpbLoop_toText fits, parseZpbLoop_toText zero,
    parseZpbLoop_toText zero, parseZpbLoop_toText zero, parseZpbLoop_last zero]
  rfl

theorem newline_notMem_toText (n : Int) : newline ∉ toText n := by
  have noBreak (n : Nat) : newline ∉ ascii n.repr.toList := fun mem => absurd (digits_repr n _ mem) (by decide)
  cases n with
  | ofNat n => exact noBreak n
  | negSucc n =>
    rw [toText_negSucc, List.mem_cons, not_or]
    exact ⟨by decide, noBreak (n + 1)⟩

theorem newline_notMem_tickFields (playerId tick : Int) : newline ∉ tickFields playerId tick := by
  have apart : newline ≠ space := by decide
  simp [tickFields, newline_notMem_toText, apart]

/-- The ticks of a player that has so many left, in the order in which it sends them. -/
def ticksDown : Nat → List Int
  | 0 => []
  | n + 1 => (n + 1 : Nat) :: ticksDown n

theorem fits_ticksDown {n : Nat} (small : n < 2 ^ 63) : ∀ tick ∈ ticksDown n, Fits tick := by
  induction n with
  | zero => exact List.forall_mem_nil _
  | succ n ih =>
    refine List.forall_mem_cons.mpr ⟨?_, ih (by omega)⟩
    rw [Fits]
    omega

/-- What a client writes at a tick. -/
def tickBytes (playerId tick : Int) : Bytes := zpbHeader playerId tick ++ makePayload playerId tick

section Parser
variable {K : Type} {core : Core K} {cnx : Cnx} {streamId : StreamId} {stream : Parse}

theorem expects_ticks {playerId : Int} (id : Fits playerId) (mode : stream.headerParsed = false)
    (sketch : stream.isSketch = false) (pub : stream.isPub = false) {ticks : List Int} (fit : ∀ tick ∈ ticks, Fits tick) :
    Expects (pumpRound core cnx streamId) stream (ticks.flatMap (tickBytes playerId))
      (· = ticks.flatMap (tickCalls playerId)) := by
  induction ticks generalizing stream with
  | nil => exact .done rfl
  | cons tick ticks ih =>
    obtain ⟨here, later⟩ := List.forall_mem_cons.mp fit
    have wellFormed : (parseZpbFields (tickFields playerId tick) {}).1 = true := by
      rw [parseZpbFields_tick id here]
    have motion : (parseZpbFields (tickFields playerId tick) stream.motion).2 = tickMotion playerId tick := by
      rw [parseZpbFields_tick id here]
    have header (state : Tables K) : Turn core cnx streamId (state, stream)
        (zpbVerb ++ space :: tickFields playerId tick ++ [newline]) [some .handleZoneSub] _ :=
      .header mode (by decide) (notMem_header (by decide) (newline_notMem_tickFields playerId tick)) (.zpb wellFormed)
    simp only [motion] at header
    have payload (state : Tables K) : Turn core cnx streamId
        (state, { stream with topic := tickFields playerId tick, headerParsed := true,
                              motion := tickMotion playerId tick, isZonePub := true })
        (makePayload playerId tick) [some (.handleZonePub (tickMotion playerId tick) (makePayload playerId tick))] _ :=
      .zone rfl sketch pub rfl (length_makePayload playerId tick)
    rw [List.flatMap_cons, tickBytes, zpbHeader_eq, List.append_assoc]
    refine .round _ (fun _ => [.handleZoneSub]) (fun state => (header state).next _) fun _ => ?_
    refine .round _ (fun _ => [.handleZonePub (tickMotion playerId tick) (makePayload playerId tick)])
      (fun state => (payload state).next _) fun _ => ?_
    refine (ih ?_ ?_ ?_ later).mono fun calls same => ?_
    · rfl
    · exact sketch
    · exact pub
    · rw [same]
      rfl

end Parser

/-! ### Players -/

/-- The loop writes the ticks that are left and leaves none. -/
theorem sendTicks_eq : ∀ (n : Nat) (player : PlayerCtx), player.ticksRemaining = n →
    sendTicks n player = ({ player with ticksRemaining := 0 },
      (ticksDown n).flatMap fun tick => [zpbHeader player.playerId tick, makePayload player.playerId tick])
  | 0, player, left => by
    obtain ⟨playerId, ticks, state, streamId⟩ := player
    cases left
    rfl
  | n + 1, player, left => by
    have more : player.ticksRemaining > 0 := by omega
    have one : player.ticksRemaining - 1 = n := by omega
    rw [sendTicks, if_pos more, sendTicks_eq n _ one, ticksDown, List.flatMap_cons, left]
    rfl

/-- All the bytes that a player has to send. -/
def allBytes (player : PlayerCtx) : Bytes :=
  (ticksDown player.ticksRemaining.toNat).flatMap (tickBytes player.playerId)

/-- The calls that the ticks of a player make. -/
def allCalls (player : PlayerCtx) : List Call :=
  (ticksDown player.ticksRemaining.toNat).flatMap (tickCalls player.playerId)

theorem sendAllTicks_eq (player : PlayerCtx) : (sendAllTicks player).1.state = .done ∧
    (sendAllTicks player).2.flatten = allBytes player := by
  rw [sendAllTicks]
  by_cases more : 0 ≤ player.ticksRemaining
  · rw [sendTicks_eq _ { player with state := .publishing } (Int.toNat_of_nonneg more).symm]
    refine ⟨rfl, ?_⟩
    rw [allBytes]
    generalize ticksDown player.ticksRemaining.toNat = ticks
    induction ticks with
    | nil => rfl
    | cons tick ticks ih =>
      rw [List.flatMap_cons, List.flatten_append, ih, List.flatMap_cons]
      simp [tickBytes]
  · have none : player.ticksRemaining.toNat = 0 := Int.toNat_of_nonpos (by omega)
    rw [allBytes, none]
    exact ⟨rfl, rfl⟩

/-- A player that is not done has written nothing, and one that is done has written everything once. -/
def Written (start player : PlayerCtx) (written : Bytes) : Prop :=
  (player.state = .connecting ∧ player.playerId = start.playerId ∧ player.ticksRemaining = start.ticksRemaining ∨
      player.state = .failed) ∧ written = [] ∨
    player.state = .done ∧ written = allBytes start

theorem Written.callback {start player : PlayerCtx} {written : Bytes} (so : Written start player written)
    (event : Callback) : Written start (loadClientStreamCallback event player).1
      (written ++ (loadClientStreamCallback event player).2.flatten) := by
  have silent : Written start player (written ++ [].flatten) := by rwa [List.flatten_nil, List.append_nil]
  have ready : Written start (loadClientStreamCallback .ready player).1
      (written ++ (loadClientStreamCallback .ready player).2.flatten) := by
    rw [loadClientStreamCallback]
    by_cases first : player.state = .connecting
    · rw [if_pos first]
      obtain ⟨done, all⟩ := sendAllTicks_eq { player with streamId := 0 }
      rcases so with ⟨⟨-, sameId, sameTicks⟩ | failed, rfl⟩ | ⟨isDone, -⟩
      · refine .inr ⟨done, ?_⟩
        rw [all, List.nil_append, allBytes, sameId, sameTicks, allBytes]
      · rw [first] at failed
        cases failed
      · rw [first] at isDone
        cases isDone
    · rw [if_neg first]
      exact silent
  have closing : Written start (loadClientStreamCallback .close player).1
      (written ++ (loadClientStreamCallback .close player).2.flatten) := by
    rw [loadClientStreamCallback]
    by_cases early : player.state ≠ .done
    · rw [if_pos early]
      rcases so with ⟨-, rfl⟩ | ⟨isDone, -⟩
      · exact .inl ⟨.inr rfl, rfl⟩
      · exact absurd isDone early
    · rw [if_neg early]
      exact silent
  cases event with
  | almostReady | ready => exact ready
  | close | applicationClose => exact closing
  | streamData | streamFin | other => exact silent

/-! ### Players and server -/

/-- The players by their connections, what each has written to its stream and how much of it has arrived, whether the
    server has seen the connection close, and the events that the server was told of, in order. -/
structure World where
  players : Cnx → PlayerCtx
  written : Cnx → Bytes
  arrived : Cnx → Nat
  closed : Cnx → Bool
  events : List Event

namespace World

/-- Nothing has happened. -/
def start (players : Cnx → PlayerCtx) : World := ⟨players, fun _ => [], fun _ => 0, fun _ => false, []⟩

/-- The client of a connection is called back. -/
def callback (w : World) (cnx : Cnx) (event : Callback) : World :=
  let (player, writes) := loadClientStreamCallback event (w.players cnx)
  { w with
    players := Function.update w.players cnx player
    written := Function.update w.written cnx (w.written cnx ++ writes.flatten) }

/-- The next bytes of a player arrive on its stream. -/
def arrive (w : World) (cnx : Cnx) (n : Nat) : World :=
  let chunk := ((w.written cnx).drop (w.arrived cnx)).take n
  { w with
    arrived := Function.update w.arrived cnx (w.arrived cnx + chunk.length)
    events := w.events ++ [.streamData cnx 0 chunk] }

/-- A connection is closed. -/
def close (w : World) (cnx : Cnx) : World :=
  { w with closed := Function.update w.closed cnx true, events := w.events ++ [.close cnx] }

/-- An event of another stream. -/
def other (w : World) (event : Event) : World := { w with events := w.events ++ [event] }

end World

/-- What can happen next. -/
inductive Act where
  | callback (cnx : Cnx) (event : Callback)
  | arrive (cnx : Cnx) (n : Nat)
  | close (cnx : Cnx)
  | other (event : Event)

/-- What can happen, with the connections that are players'. -/
inductive Acts (plays : Cnx → Prop) : World → Option Act → World → Prop where
  | callback {w : World} (cnx : Cnx) (event : Callback) : Acts plays w (some (.callback cnx event)) (w.callback cnx event)
  | arrive {w : World} {cnx : Cnx} (opened : w.closed cnx = false) (n : Nat) :
      Acts plays w (some (.arrive cnx n)) (w.arrive cnx n)
  | close {w : World} (cnx : Cnx) : Acts plays w (some (.close cnx)) (w.close cnx)
  | other {w : World} {event : Event} (apart : ∀ cnx, plays cnx → event.Apart (cnx, 0)) :
      Acts plays w (some (.other event)) (w.other event)

/-! ### What has arrived -/

section Arrived
variable {K : Type} {core : Core K} {key : Key}

/-- The server after the events. -/
def serveAll (core : Core K) (events : List Event) (bridge : BridgeState K) : BridgeState K :=
  events.foldl (fun bridge event => (fanoutStreamCallback core event bridge).1) bridge

theorem callsOn_append (events later : List Event) (state : BridgeState K) :
    callsOn core key (events ++ later) state =
      callsOn core key events state ++ callsOn core key later (serveAll core events state) := by
  induction events generalizing state with
  | nil => rfl
  | cons event events ih =>
    rw [List.cons_append, callsOn, ih, callsOn, List.append_assoc]
    rfl

theorem callsOn_of_silent {events : List Event} (silent : ∀ event ∈ events, event.pumps ≠ some key)
    (state : BridgeState K) : callsOn core key events state = [] := by
  induction events generalizing state with
  | nil => rfl
  | cons event events ih =>
    obtain ⟨here, later⟩ := List.forall_mem_cons.mp silent
    rw [callsOn, if_neg here, ih later, List.append_nil]

/-- The bytes have arrived on a stream that is still open, and more may come. -/
inductive Arriving (key : Key) : List Event → Bytes → Prop where
  | nil : Arriving key [] []
  | apart {events : List Event} {bytes : Bytes} {event : Event} (before : Arriving key events bytes)
      (apart : event.Apart key) : Arriving key (events ++ [event]) bytes
  | data {events : List Event} {bytes : Bytes} (before : Arriving key events bytes) (chunk : Bytes) :
      Arriving key (events ++ [.streamData key.1 key.2 chunk]) (bytes ++ chunk)

theorem Arriving.arrives {events later : List Event} {bytes more : Bytes} (arriving : Arriving key events bytes)
    (arrives : Arrives key later more) : Arrives key (events ++ later) (bytes ++ more) := by
  induction arriving generalizing later more with
  | nil => exact arrives
  | apart _ apart ih =>
    rw [List.append_assoc, List.singleton_append]
    exact ih (.apart apart arrives)
  | data _ chunk ih =>
    rw [List.append_assoc, List.append_assoc, List.singleton_append]
    exact ih (.data chunk arrives)

/-- While the first bytes of some ticks have arrived, the first of their calls have been made. -/
theorem Arriving.calls {playerId : Int} (id : Fits playerId) {ticks : List Int} (fit : ∀ tick ∈ ticks, Fits tick)
    {events : List Event} {bytes more : Bytes} (arriving : Arriving key events bytes)
    (split : bytes ++ more = ticks.flatMap (tickBytes playerId)) (k : K) :
    ∃ later, ticks.flatMap (tickCalls playerId) = callsOn core key events { core := k } ++ later ∧
      (more = [] → later = []) := by
  have inc := incremental core key.1 key.2
  have arrived {events : List Event} (arrives : Arrives key events (ticks.flatMap (tickBytes playerId))) :
      callsOn core key events { core := k } = ticks.flatMap (tickCalls playerId) := by
    obtain ⟨chunks, flat, calls⟩ := callsOn_eq_feedAmid core arrives { core := k } {} rfl
    have expects : Expects (pumpRound core key.1 key.2) {} ([] ++ (chunks.map Prod.snd).flatten)
        (· = ticks.flatMap (tickCalls playerId)) := by
      rw [flat, List.nil_append]
      exact expects_ticks id rfl rfl rfl fit
    exact calls.trans (expects.feedAmid inc chunks (inc.waits_nil ({ core := k }, {})))
  have whole : Arrives key (events ++ [.streamData key.1 key.2 more]) (bytes ++ more) := by
    have last : Arrives key [.streamData key.1 key.2 more] (more ++ []) := .data more .nil
    rw [List.append_nil] at last
    exact arriving.arrives last
  rw [split] at whole
  refine ⟨_, (arrived whole).symm.trans (callsOn_append _ _ _), fun none => ?_⟩
  subst none
  have now : Arrives key events (bytes ++ []) := by simpa using arriving.arrives Arrives.nil
  rw [split] at now
  have same := (arrived now).trans ((arrived whole).symm.trans (callsOn_append _ _ _))
  exact List.self_eq_append_right.mp same

end Arrived

/-! ### Whole runs -/

/-- The bytes have arrived on the stream, and nothing has once the connection was closed. -/
def Heard (cnx : Cnx) (bytes : Bytes) (closed : Bool) (events : List Event) : Prop :=
  ∃ before after, events = before ++ after ∧ Arriving (cnx, 0) before bytes ∧
    (∀ event ∈ after, event.pumps ≠ some (cnx, 0)) ∧ (closed = false → after = [])

section Heard
variable {cnx : Cnx} {bytes : Bytes} {closed : Bool} {events : List Event} {event : Event}

/-- Behind the end of a connection. -/
theorem Heard.silent (heard : Heard cnx bytes closed events) (other : event.pumps ≠ some (cnx, 0)) :
    Heard cnx bytes true (events ++ [event]) := by
  obtain ⟨before, after, rfl, arriving, silent, -⟩ := heard
  refine ⟨before, after ++ [event], List.append_assoc .., arriving, ?_, fun off => by cases off⟩
  exact List.forall_mem_append.mpr ⟨silent, List.forall_mem_singleton.mpr other⟩

/-- An event that leaves the stream of the player alone. -/
theorem Heard.apart (heard : Heard cnx bytes closed events) (apart : event.Apart (cnx, 0)) :
    Heard cnx bytes closed (events ++ [event]) := by
  cases closed with
  | false =>
    obtain ⟨before, after, rfl, arriving, -, alive⟩ := heard
    obtain rfl := alive rfl
    rw [List.append_nil]
    exact ⟨before ++ [event], [], (List.append_nil _).symm, arriving.apart apart, List.forall_mem_nil _, fun _ => rfl⟩
  | true => exact heard.silent apart.pumps_ne

end Heard

/-- What is known of a player: what it has written, and what of it has arrived before the connection was closed. -/
structure Going (start : PlayerCtx) (cnx : Cnx) (w : World) : Prop where
  written : Written start (w.players cnx) (w.written cnx)
  bound : w.arrived cnx ≤ (w.written cnx).length
  arrived : Heard cnx ((w.written cnx).take (w.arrived cnx)) (w.closed cnx) w.events

namespace Going
variable {plays : Cnx → Prop} {start : PlayerCtx} {cnx : Cnx} {w : World}

theorem step {w' : World} {act : Option Act} (acts : Acts plays w act w') (player : plays cnx)
    (going : Going start cnx w) : Going start cnx w' := by
  cases acts with
  | callback cnx' event =>
    by_cases same : cnx = cnx'
    · subst same
      have written : (w.callback cnx event).written cnx =
          w.written cnx ++ (loadClientStreamCallback event (w.players cnx)).2.flatten := Function.update_self ..
      have player : (w.callback cnx event).players cnx = (loadClientStreamCallback event (w.players cnx)).1 :=
        Function.update_self ..
      refine ⟨?_, ?_, ?_⟩
      · rw [written, player]
        exact going.written.callback event
      · rw [written, List.length_append]
        exact Nat.le_add_right_of_le going.bound
      · rw [written]
        exact (List.take_append_of_le_length going.bound).symm ▸ going.arrived
    · have written : (w.callback cnx' event).written cnx = w.written cnx := Function.update_of_ne same _ _
      have player : (w.callback cnx' event).players cnx = w.players cnx := Function.update_of_ne same _ _
      refine ⟨?_, written ▸ going.bound, written ▸ going.arrived⟩
      rw [written, player]
      exact going.written
  | @arrive cnx' opened n =>
    by_cases same : cnx = cnx'
    · subst same
      obtain ⟨before, after, split, arriving, -, alive⟩ := going.arrived
      obtain rfl := alive opened
      rw [List.append_nil] at split
      let chunk := ((w.written cnx).drop (w.arrived cnx)).take n
      have sofar : (w.arrive cnx n).arrived cnx = w.arrived cnx + chunk.length := Function.update_self ..
      have taken : (w.written cnx).take ((w.arrive cnx n).arrived cnx) = (w.written cnx).take (w.arrived cnx) ++ chunk := by
        rw [sofar, List.take_add, List.length_take, ← List.take_eq_take_min]
      refine ⟨going.written, ?_, before ++ [.streamData cnx 0 chunk], [], ?_, ?_, List.forall_mem_nil _, fun _ => rfl⟩
      · have bound := going.bound
        rw [sofar, List.length_take, List.length_drop]
        change _ ≤ (w.written cnx).length
        omega
      · rw [List.append_nil, ← split]
        rfl
      · change Arriving _ _ ((w.written cnx).take _)
        rw [taken]
        exact arriving.data _
    · have sofar : (w.arrive cnx' n).arrived cnx = w.arrived cnx := Function.update_of_ne same _ _
      refine ⟨going.written, sofar ▸ going.bound, ?_⟩
      rw [sofar]
      exact going.arrived.apart (by simpa [Event.Apart] using Ne.symm same)
  | close cnx' =>
    by_cases same : cnx = cnx'
    · subst same
      have closed : (w.close cnx).closed cnx = true := Function.update_self ..
      refine ⟨going.written, going.bound, ?_⟩
      rw [closed]
      exact going.arrived.silent fun same => by cases same
    · have alive : (w.close cnx').closed cnx = w.closed cnx := Function.update_of_ne same _ _
      refine ⟨going.written, going.bound, ?_⟩
      rw [alive]
      exact going.arrived.apart (by simpa [Event.Apart] using Ne.symm same)
  | other apart => exact ⟨going.written, going.bound, going.arrived.apart (apart cnx player)⟩

end Going

section Once
variable {K : Type} {plays : Cnx → Prop} {players : Cnx → PlayerCtx} {acts : List Act} {w : World}

/-- In every run of the players and the server, whatever else happens: what the server has done for a player are the
    first of the calls for its ticks; they are all the calls once the player is done and its bytes have arrived, and
    there are none while the player is not done. -/
theorem ticks_once (core : Core K) (k : K) (connecting : ∀ cnx, (players cnx).state = .connecting)
    (run : Run (Acts plays) (.start players) acts w) {cnx : Cnx} (player : plays cnx) (id : Fits (players cnx).playerId)
    (small : (players cnx).ticksRemaining < 2 ^ 63) :
    callsOn core (cnx, 0) w.events { core := k } <+: allCalls (players cnx) ∧
      ((w.players cnx).state = .done → w.arrived cnx = (w.written cnx).length →
        callsOn core (cnx, 0) w.events { core := k } = allCalls (players cnx)) ∧
      ((w.players cnx).state ≠ .done → callsOn core (cnx, 0) w.events { core := k } = []) := by
  have started : Going (players cnx) cnx (.start players) :=
    ⟨.inl ⟨.inl ⟨connecting cnx, rfl, rfl⟩, rfl⟩, Nat.le_refl 0, [], [], rfl, .nil, List.forall_mem_nil _, fun _ => rfl⟩
  have going : Going (players cnx) cnx w := run.invariant (fun _ _ _ act before => before.step act player) started
  obtain ⟨before, after, split, arriving, silent, -⟩ := going.arrived
  have calls : callsOn core (cnx, 0) w.events { core := k } = callsOn core (cnx, 0) before { core := k } := by
    rw [split, callsOn_append, callsOn_of_silent silent, List.append_nil]
  have fit : ∀ tick ∈ ticksDown (players cnx).ticksRemaining.toNat, Fits tick := fits_ticksDown (by omega)
  rw [calls]
  rcases going.written with ⟨unfinished, nothing⟩ | ⟨done, everything⟩
  · rw [nothing, List.take_nil] at arriving
    have made : ∃ later, [] = callsOn core (cnx, 0) before { core := k } ++ later ∧ ([] = [] → later = []) :=
      arriving.calls id (List.forall_mem_nil _) rfl k
    obtain ⟨later, all, -⟩ := made
    obtain ⟨none, -⟩ := List.append_eq_nil_iff.mp all.symm
    rw [none]
    refine ⟨List.nil_prefix, fun isDone => ?_, fun _ => rfl⟩
    rcases unfinished with ⟨early, -⟩ | failed
    · rw [early] at isDone
      cases isDone
    · rw [failed] at isDone
      cases isDone
  · have made : ∃ later, allCalls (players cnx) = callsOn core (cnx, 0) before { core := k } ++ later ∧
        ((w.written cnx).drop (w.arrived cnx) = [] → later = []) :=
      arriving.calls id fit ((List.take_append_drop _ _).trans everything) k
    obtain ⟨later, all, complete⟩ := made
    refine ⟨⟨later, all.symm⟩, fun _ whole => ?_, fun unfinished => absurd done unfinished⟩
    rw [all, complete (List.drop_of_length_le (Nat.le_of_eq whole.symm)), List.append_nil]

end Once

/-- Players with two ticks each. -/
def twoTicks (_ : Cnx) : PlayerCtx := { playerId := 7, ticksRemaining := 2 }

/-- The bytes of one arrive in two parts, with a byte of someone else's in between. -/
def cutWorld : World :=
  ((((World.start twoTicks).callback 7 .ready).arrive 7 9).other (.streamData 1 4 [80])).arrive 7 1000

theorem ticks_once_cut : callsOn listCore (7, 0) cutWorld.events { core := {} } = allCalls (twoTicks 7) := by
  have run : Run (Acts (· = 7)) (.start twoTicks)
      [.callback 7 .ready, .arrive 7 9, .other (.streamData 1 4 [80]), .arrive 7 1000] cutWorld := by
    refine .label (.callback 7 .ready) (.label (.arrive rfl 9) (.label (.other ?_) (.label (.arrive rfl 1000) (.refl _))))
    rintro _ rfl
    simp [Event.Apart]
  have done : (cutWorld.players 7).state = .done := by decide +kernel
  have whole : cutWorld.arrived 7 = (cutWorld.written 7).length := by decide +kernel
  have fits : Fits (twoTicks 7).playerId := ⟨by decide, by decide⟩
  have connecting (cnx : Cnx) : (twoTicks cnx).state = .connecting := rfl
  have few : (twoTicks 7).ticksRemaining < 2 ^ 63 := by decide
  exact (ticks_once listCore {} connecting run rfl fits few).2.1 done whole

end WeftWarp.LoadClient
