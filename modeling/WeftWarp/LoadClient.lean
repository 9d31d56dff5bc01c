import WeftWarp.Fanout

/-! The players of `fanout_load_client`.

    A player has one connection to the fan-out server. As soon as it is ready the player sends all its ticks on stream
    0, each a `ZPB` header with a payload, and is done. What the server sends back is of no account. -/

namespace WeftWarp.LoadClient

open Fanout

inductive PlayerState where
  | connecting
  | publishing
  | done
  | failed
  deriving DecidableEq, Repr

structure PlayerCtx where
  playerId : Int
  ticksRemaining : Int
  state : PlayerState := .connecting
  streamId : StreamId := 0
  deriving DecidableEq, Repr

/-- The seed is the low byte of the remainder, which may be negative. -/
def makePayload (playerId tick : Int) : Bytes :=
  let seed := UInt8.ofInt (Int.tmod (playerId * 1000 + tick) 256)
  (List.range kEntityPacketSize).map fun i => UInt8.ofNat ((seed.toNat + i) % 256)

/-- `std::to_string`. -/
def toText (n : Int) : Bytes := ascii (toString n).toList

def zpbHeader (playerId tick : Int) : Bytes :=
  ascii ['Z', 'P', 'B', ' '] ++ toText playerId ++ ascii [' '] ++ toText tick ++
    ascii [' ', '0', ' ', '0', ' ', '0', ' ', '0', '\n']

/-- The loop of `sendAllTicks`, with what it writes to the stream. There are as many rounds as ticks. -/
def sendTicks : Nat → PlayerCtx → PlayerCtx × List Bytes
  | 0, player => (player, [])
  | rounds + 1, player =>
    if player.ticksRemaining > 0 then
      let tick := player.ticksRemaining
      let (after, writes) := sendTicks rounds { player with ticksRemaining := player.ticksRemaining - 1 }
      (after, zpbHeader player.playerId tick :: makePayload player.playerId tick :: writes)
    else (player, [])

def sendAllTicks (player : PlayerCtx) : PlayerCtx × List Bytes :=
  let (player, writes) := sendTicks player.ticksRemaining.toNat { player with state := .publishing }
  ({ player with state := .done }, writes)

inductive Callback where
  | almostReady
  | ready
  | streamData
  | streamFin
  | close
  | applicationClose
  | other
  deriving DecidableEq, Repr

/-- The player after a callback, with what it has written to its stream. -/
def loadClientStreamCallback (event : Callback) (player : PlayerCtx) : PlayerCtx × List Bytes :=
  match event with
  | .almostReady | .ready =>
    if player.state = .connecting then sendAllTicks { player with streamId := 0 } else (player, [])
  | .streamData | .streamFin => (player, [])
  | .close | .applicationClose => if player.state ≠ .done then ({ player with state := .failed }, []) else (player, [])
  | .other => (player, [])

end WeftWarp.LoadClient
