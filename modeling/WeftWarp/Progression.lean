import WeftWarp.Lib.Replay
import WeftWarp.S7

/-! # Progression

The reducer of `progression.scm`: items, arts behind an affinity gate, and credits. Items, arts and prices are integers
of s7; credits, the affinity and the counts are what its arithmetic makes of them. An event of another shape has no
effect. -/

namespace WeftWarp
namespace Progression
open S7

structure Profile (N : Type) where
  credits : N
  affinity : N
  items : List (Int64 × N)
  arts : List Int64
  deriving DecidableEq

inductive Event where
  | grant (item : Int64)
  | sell (item price : Int64)
  | buyArt (art : Int64)
  | train
  | other
  deriving DecidableEq

inductive Output (N : Type) where
  | granted (item : Int64)
  | refusedNoItem (item : Int64)
  | sold (item price : Int64)
  | refusedDup (art : Int64)
  | refusedGate (art : Int64)
  | refusedPoor (art : Int64)
  | learned (art : Int64)
  | trained (affinity : N)
  deriving DecidableEq

def artCost (a : Int64) : Int64 := if a = 1 then 100 else if a = 2 then 250 else 500

def artAffinityReq (a : Int64) : Int64 := if a = 1 then 10 else if a = 2 then 25 else 40

variable {N : Type} [Arithmetic N]

def initialProfile : Profile N := ⟨Arithmetic.ofInteger 200, Arithmetic.ofInteger 15, [], []⟩

def countOf (p : Profile N) (item : Int64) : N := (p.items.lookup item).getD (Arithmetic.ofInteger 0)

def addItem (p : Profile N) (item : Int64) (d : N) : Profile N :=
  if (p.items.lookup item).isSome then
    { p with items := p.items.map fun e => if e.1 = item then (e.1, Arithmetic.add e.2 d) else e }
  else { p with items := p.items ++ [(item, d)] }

def removeItem (p : Profile N) (item : Int64) : Profile N :=
  { p with
    items :=
      (p.items.map fun e => if e.1 = item then (e.1, Arithmetic.sub e.2 (Arithmetic.ofInteger 1)) else e).filter
        fun e => Arithmetic.lt (Arithmetic.ofInteger 0) e.2 }

def progressionStep (p : Profile N) : Event → Profile N × List (Output N)
  | .grant item => (addItem p item (Arithmetic.ofInteger 1), [.granted item])
  | .sell item price =>
    if Arithmetic.eq (countOf p item) (Arithmetic.ofInteger 0) then (p, [.refusedNoItem item])
    else
      (removeItem { p with credits := Arithmetic.add p.credits (Arithmetic.ofInteger price) } item, [.sold item price])
  | .buyArt art =>
    if art ∈ p.arts then (p, [.refusedDup art])
    else if Arithmetic.lt p.affinity (Arithmetic.ofInteger (artAffinityReq art)) then (p, [.refusedGate art])
    else if Arithmetic.lt p.credits (Arithmetic.ofInteger (artCost art)) then (p, [.refusedPoor art])
    else
      ({ p with credits := Arithmetic.sub p.credits (Arithmetic.ofInteger (artCost art)), arts := p.arts ++ [art] },
        [.learned art])
  | .train =>
    let a := Arithmetic.add p.affinity (Arithmetic.ofInteger 1)
    ({ p with affinity := a }, [.trained a])
  | .other => (p, [])

def progressionReplay (events : List Event) : Profile N × List (Output N) :=
  Replay.replay progressionStep (initialProfile, []) events

end Progression
end WeftWarp
