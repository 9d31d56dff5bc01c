import Mathlib.Logic.Function.Basic
import Mathlib.Logic.Relation
import WeftWarp.Lib.Run
import WeftWarp.Theorems.FanoutRounds

/-! The server over whole runs of stream events, and the moves that these are made of.

    An event is a sequence of moves: a stream is opened, the parser of an open stream takes one turn, an open stream
    is cleaned up and forgotten. Buffers do not matter any more, so a property of every reachable state is shown for
    one move at a time. -/

namespace WeftWarp.Fanout

open Feed Relation

/-- A stream of a connection. -/
abbrev Key := Cnx × StreamId

/-- The server, with the calls that each open stream has made. -/
structure Server (K : Type) where
  bridge : BridgeState K
  made : Key → List Call

/-- What counts of an open stream: where its parser is, and the calls it has made. -/
structure OpenStream where
  parse : Parse := {}
  made : List Call := []

/-- The tables, and each open stream with its calls. -/
structure View (K : Type) where
  tables : Tables K
  streams : Key → Option OpenStream

/-- A condition on a header: the tables, the parsers of the open streams, and the stream with the verb and the topic
    that it reads. -/
abbrev Guard (K : Type) := Tables K → (Key → Option Parse) → Key → Bytes → Bytes → Prop

section Update
variable {α : Type} {f : Key → Option α} {key key' : Key} {x y : α}

theorem update_some_eq_some : Function.update f key (some x) key' = some y ↔
    key' = key ∧ x = y ∨ key' ≠ key ∧ f key' = some y := by
  by_cases same : key' = key <;> simp [same]

theorem update_none_eq_some : Function.update f key none key' = some y ↔ key' ≠ key ∧ f key' = some y := by
  by_cases same : key' = key <;> simp [same]

end Update

section Server
variable {K : Type}

namespace Server

/-- No stream is open. -/
def start (k : K) : Server K := ⟨{ core := k }, fun _ => []⟩

/-- The calls of a stream, none if it is not open. -/
def calls (server : Server K) (key : Key) : List Call :=
  match server.bridge.streams.find? key with
  | none => []
  | some _ => server.made key

/-- What the invariants are about. -/
def view (server : Server K) : View K where
  tables := server.bridge.toTables
  streams key := (server.bridge.streams.find? key).map fun stream => ⟨stream.toParse, server.made key⟩

end Server

/-- The parser of each open stream. -/
def View.parses (v : View K) (key : Key) : Option Parse := (v.streams key).map OpenStream.parse

variable (core : Core K) (guard : Guard K)

/-- The server takes an event. -/
def serve (event : Event) (server : Server K) : Server K :=
  let (bridge, calls) := fanoutStreamCallback core event server.bridge
  match event with
  | .streamData cnx streamId _ =>
    ⟨bridge, Function.update server.made (cnx, streamId) (server.calls (cnx, streamId) ++ calls)⟩
  | _ => ⟨bridge, server.made⟩

/-- Every header that a chunk completes meets the condition when it is read. -/
def HeedsChunk (cnx : Cnx) (streamId : StreamId) (bytes : Bytes) (server : Server K) : Prop :=
  let stream := (server.bridge.streams.find? (cnx, streamId)).getD {}
  Along (pumpRound core cnx streamId)
    (fun s buf => s.2.headerParsed = false → ∀ verb topic rest, buf = verb ++ space :: topic ++ newline :: rest →
      space ∉ verb → guard s.1 (Function.update server.view.parses (cnx, streamId) (some s.2)) (cnx, streamId) verb topic)
    (stream.buf ++ bytes).length (server.bridge.toTables, stream.toParse) (stream.buf ++ bytes)

/-- Every header of the event meets the guard. -/
def Heeds (server : Server K) : Event → Prop
  | .streamData cnx streamId bytes | .streamFin cnx streamId bytes => HeedsChunk core guard cnx streamId bytes server
  | _ => True

/-- An event whose headers meet the condition. -/
def Serves (server : Server K) (event : Option Event) (server' : Server K) : Prop :=
  ∃ e, event = some e ∧ Heeds core guard server e ∧ server' = serve core e server

/-! ### Moves -/

/-- What happens to the view at an event, piece by piece. -/
inductive Move : View K → View K → Prop where
  | opened {v : View K} {key : Key} (fresh : v.streams key = none) :
      Move v { v with streams := Function.update v.streams key (some {}) }
  | turned {v : View K} {key : Key} {s : OpenStream} {used : Bytes} {out : List (Option Call)} {tables : Tables K}
      {parse : Parse} (found : v.streams key = some s)
      (turn : Turn core key.1 key.2 (v.tables, s.parse) used out (tables, parse))
      (heeds : s.parse.headerParsed = false → ∀ verb topic, used = verb ++ space :: topic ++ [newline] → space ∉ verb →
        guard v.tables v.parses key verb topic) :
      Move v ⟨tables, Function.update v.streams key (some ⟨parse, s.made ++ out.reduceOption⟩)⟩
  | finished {v : View K} {key : Key} {s : OpenStream} (found : v.streams key = some s) :
      Move v ⟨cleanupStream core key.1 key.2 s.parse v.tables, Function.update v.streams key none⟩

variable {core guard}

/-- A condition that always holds is met by every chunk and every event. -/
theorem heedsChunk_of_forall (always : ∀ state parses key verb topic, guard state parses key verb topic) (cnx : Cnx)
    (streamId : StreamId) (bytes : Bytes) (server : Server K) : HeedsChunk core guard cnx streamId bytes server :=
  .of_forall (fun _ _ _ _ _ _ _ _ => always _ _ _ _ _) _ _ _

theorem heeds_of_forall (always : ∀ state parses key verb topic, guard state parses key verb topic)
    (server : Server K) (event : Event) : Heeds core guard server event := by
  cases event with
  | streamData | streamFin => exact heedsChunk_of_forall always _ _ _ server
  | _ => trivial

theorem View.parses_update (v : View K) (key : Key) (s : OpenStream) (tables : Tables K) :
    View.parses ⟨tables, Function.update v.streams key (some s)⟩ = Function.update v.parses key (some s.parse) := by
  funext key'
  by_cases same : key' = key
  · subst same
    simp [View.parses]
  · simp [View.parses, Function.update_of_ne same]

/-- A chunk opens its stream if need be, and then the parser takes its turns. -/
theorem moves_of_receive {cnx : Cnx} {streamId : StreamId} {bytes : Bytes} {server : Server K}
    (heeds : HeedsChunk core guard cnx streamId bytes server) :
    ReflTransGen (Move core guard) server.view (serve core (.streamData cnx streamId bytes) server).view := by
  rw [HeedsChunk] at heeds
  generalize found : (server.bridge.streams.find? (cnx, streamId)).getD {} = stream at heeds
  -- The view while the parser is at work.
  let during (s : Tables K × Parse) (made : List Call) : View K :=
    ⟨s.1, Function.update server.view.streams (cnx, streamId) (some ⟨s.2, made⟩)⟩
  have opened : ReflTransGen (Move core guard) server.view
      (during (server.bridge.toTables, stream.toParse) (server.calls (cnx, streamId))) := by
    cases entry : server.bridge.streams.find? (cnx, streamId) with
    | none =>
      rw [entry] at found
      subst found
      have fresh : server.view.streams (cnx, streamId) = none := by simp [Server.view, entry]
      have move : Move core guard server.view _ := .opened fresh
      simp only [during, Server.calls, entry]
      exact .single move
    | some old =>
      rw [entry] at found
      subst found
      have same : during (server.bridge.toTables, old.toParse) (server.calls (cnx, streamId)) = server.view := by
        have present : server.view.streams (cnx, streamId) = some ⟨old.toParse, server.made (cnx, streamId)⟩ := by
          simp [Server.view, entry]
        simp only [during, Server.calls, entry, ← present, Function.update_eq_self]
        rfl
      simp only [Option.getD_some, same]
      exact .refl
  have turns := Along.invariant (I := fun s made => ReflTransGen (Move core guard) server.view (during s made)) ?_
    _ _ _ (server.calls (cnx, streamId)) heeds opened
  · have after : (serve core (.streamData cnx streamId bytes) server).view =
        during (drain (pumpRound core cnx streamId) (stream.buf ++ bytes).length (server.bridge.toTables, stream.toParse)
            (stream.buf ++ bytes)).1
          (server.calls (cnx, streamId) ++ (drain (pumpRound core cnx streamId) (stream.buf ++ bytes).length
            (server.bridge.toTables, stream.toParse) (stream.buf ++ bytes)).2.2) := by
      simp only [serve, fanoutStreamCallback, receive, pumpStream, found, Server.view, during, View.mk.injEq, true_and]
      funext key
      by_cases same : key = (cnx, streamId)
      · subst same
        simp
      · simp [Function.update_of_ne same, OrderedMap.find?_set_ne _ _ same]
    rw [after]
    exact turns
  · intro s buf s' rest out seen meets next sofar
    obtain ⟨used, rfl, turn⟩ := turn_of_next next
    refine sofar.tail ?_
    have present : (during s seen).streams (cnx, streamId) = some ⟨s.2, seen⟩ := Function.update_self ..
    have move : Move core guard (during s seen) _ := .turned present turn fun mode verb topic header noSpace => by
      rw [View.parses_update]
      exact meets mode verb topic rest (by rw [header]; simp) noSpace
    simpa only [during, Function.update_idem] using move

theorem find?_finish (cnx : Cnx) (streamId : StreamId) (bridge : BridgeState K) (key : Key) :
    (finish core cnx streamId bridge).streams.find? key =
      if key = (cnx, streamId) then none else bridge.streams.find? key := by
  rw [finish]
  cases entry : bridge.streams.find? (cnx, streamId) with
  | none =>
    by_cases same : key = (cnx, streamId)
    · rw [if_pos same, same]
      exact entry
    · rw [if_neg same]
  | some stream => exact OrderedMap.find?_erase _ _ _

theorem view_finish {cnx : Cnx} {streamId : StreamId} {server : Server K} {stream : StreamState}
    (found : server.bridge.streams.find? (cnx, streamId) = some stream) :
    Server.view ⟨finish core cnx streamId server.bridge, server.made⟩ =
      ⟨cleanupStream core cnx streamId stream.toParse server.bridge.toTables,
        Function.update server.view.streams (cnx, streamId) none⟩ := by
  have tables : (finish core cnx streamId server.bridge).toTables =
      cleanupStream core cnx streamId stream.toParse server.bridge.toTables := by simp only [finish, found]
  simp only [Server.view, tables, View.mk.injEq, true_and]
  funext key
  by_cases same : key = (cnx, streamId) <;> simp [find?_finish, same]

theorem moves_of_finish (cnx : Cnx) (streamId : StreamId) (server : Server K) :
    ReflTransGen (Move core guard) server.view
      (Server.view ⟨finish core cnx streamId server.bridge, server.made⟩) := by
  cases entry : server.bridge.streams.find? (cnx, streamId) with
  | none =>
    have same : finish core cnx streamId server.bridge = server.bridge := by simp only [finish, entry]
    rw [same]
  | some stream =>
    have present : server.view.streams (cnx, streamId) = some ⟨stream.toParse, server.made (cnx, streamId)⟩ := by
      simp [Server.view, entry]
    rw [view_finish entry]
    exact .single (.finished present)

theorem moves_of_cleanups (cnx : Cnx) : ∀ (l : List (Key × StreamState)) (v : View K), (l.map Prod.fst).Nodup →
    (∀ entry ∈ l, entry.1.1 = cnx ∧ ∃ s, v.streams entry.1 = some s ∧ s.parse = entry.2.toParse) →
    ReflTransGen (Move core guard) v
      ⟨l.foldl (fun tables entry => cleanupStream core cnx entry.1.2 entry.2.toParse tables) v.tables,
        fun key => if key ∈ l.map Prod.fst then none else v.streams key⟩
  | [], v => by
    intro _ _
    simp only [List.foldl_nil, List.map_nil, List.not_mem_nil, if_false]
    exact .refl
  | (key, stream) :: l, v => by
    intro nodup present
    rw [List.map_cons, List.nodup_cons] at nodup
    obtain ⟨⟨rfl, s, found, parse⟩, later⟩ := List.forall_mem_cons.mp present
    have move : Move core guard v _ := .finished found
    have rest := moves_of_cleanups key.1 l
      ⟨cleanupStream core key.1 key.2 s.parse v.tables, Function.update v.streams key none⟩ nodup.2 ?_
    · have erased : (fun key' => if key' ∈ l.map Prod.fst then none else Function.update v.streams key none key') =
          fun key' => if key' ∈ ((key, stream) :: l).map Prod.fst then none else v.streams key' := by
        funext key'
        rw [List.map_cons]
        by_cases same : key' = key <;> simp only [same, Function.update_self, Function.update_of_ne, ne_eq,
          not_false_eq_true, List.mem_cons, true_or, false_or, if_true, ite_self]
      simp only [erased, parse] at rest
      rw [parse] at move
      exact (ReflTransGen.single move).trans rest
    · intro entry mem
      obtain ⟨sameCnx, s', found', parse'⟩ := later entry mem
      have other : entry.1 ≠ key := fun same => nodup.1 (List.mem_map.mpr ⟨entry, mem, same⟩)
      exact ⟨sameCnx, s', (Function.update_of_ne other _ _).trans found', parse'⟩

theorem moves_of_close (cnx : Cnx) (server : Server K) :
    ReflTransGen (Move core guard) server.view (serve core (.close cnx) server).view := by
  have same : (serve core (.close cnx) server).view =
      ⟨(server.bridge.streams.entries.filter fun entry => entry.1.1 = cnx).foldl
          (fun tables entry => cleanupStream core cnx entry.1.2 entry.2.toParse tables) server.view.tables,
        fun key => if key ∈ (server.bridge.streams.entries.filter fun entry => entry.1.1 = cnx).map Prod.fst then none
          else server.view.streams key⟩ := by
    simp only [serve, fanoutStreamCallback, Server.view, View.mk.injEq, true_and]
    funext key
    rw [OrderedMap.find?_filter]
    by_cases same : key.1 = cnx
    · cases entry : server.bridge.streams.find? key with
      | none => simp [same]
      | some stream =>
        have listed : key ∈ (server.bridge.streams.entries.filter fun entry => entry.1.1 = cnx).map Prod.fst :=
          List.mem_map.mpr ⟨(key, stream), List.mem_filter.mpr ⟨OrderedMap.mem_of_find? entry, decide_eq_true same⟩, rfl⟩
        simp only [same, ne_eq, not_true, decide_false, Bool.false_eq_true, if_false, Option.map_none, listed, if_true]
    · have absent : key ∉ (server.bridge.streams.entries.filter fun entry => entry.1.1 = cnx).map Prod.fst := by
        intro mem
        obtain ⟨entry, listed, rfl⟩ := List.mem_map.mp mem
        have sameCnx := (List.mem_filter.mp listed).2
        exact same (of_decide_eq_true sameCnx)
      simp only [same, ne_eq, not_false_eq_true, decide_true, if_true, absent, if_false]
  rw [same]
  refine moves_of_cleanups cnx _ _ (server.bridge.streams.nodup.sublist (List.filter_sublist.map Prod.fst)) ?_
  intro entry mem
  obtain ⟨mem, sameCnx⟩ := List.mem_filter.mp mem
  exact ⟨of_decide_eq_true sameCnx, ⟨entry.2.toParse, server.made entry.1⟩,
    by simp [Server.view, OrderedMap.find?_of_mem mem], rfl⟩

theorem moves_of_serve {server : Server K} {event : Event} (heeds : Heeds core guard server event) :
    ReflTransGen (Move core guard) server.view (serve core event server).view := by
  cases event with
  | streamData cnx streamId bytes => exact moves_of_receive heeds
  | streamFin cnx streamId bytes =>
    have closing : ReflTransGen (Move core guard) _ _ :=
      moves_of_finish cnx streamId (serve core (.streamData cnx streamId bytes) server)
    -- The calls of the last chunk are forgotten together with the stream.
    have same : (serve core (.streamFin cnx streamId bytes) server).view =
        Server.view ⟨finish core cnx streamId (serve core (.streamData cnx streamId bytes) server).bridge,
          (serve core (.streamData cnx streamId bytes) server).made⟩ := by
      simp only [serve, fanoutStreamCallback, Server.view, View.mk.injEq, true_and]
      funext key
      by_cases same : key = (cnx, streamId) <;> simp [find?_finish, same]
    rw [same]
    exact (moves_of_receive heeds).trans closing
  | streamReset cnx streamId => exact moves_of_finish cnx streamId server
  | close cnx => exact moves_of_close cnx server
  | other => exact .refl

theorem holds_of_moves {P : View K → Prop} (keeps : ∀ v v', Move core guard v v' → P v → P v') {v v' : View K}
    (moves : ReflTransGen (Move core guard) v v') (holds : P v) : P v' := by
  induction moves with
  | refl => exact holds
  | tail _ move ih => exact keeps _ _ move ih

/-- What every move keeps holds along a run whose headers meet the condition. -/
theorem holds_of_run {P : View K → Prop} (keeps : ∀ v v', Move core guard v v' → P v → P v') {server server' : Server K}
    {events : List Event} (run : Run (Serves core guard) server events server') (start : P server.view) :
    P server'.view := by
  refine run.invariant (P := fun server => P server.view) ?_ start
  rintro server l server' ⟨event, rfl, heeds, rfl⟩ holds
  exact holds_of_moves keeps (moves_of_serve heeds) holds

end Server
end WeftWarp.Fanout
