import WeftWarp.Lib.Replay

/-! # Combat

The reducer of `combat.scm`: combos, the invulnerability of a fresh enemy, and damage. A record of the source is a
vector, and `record-with` rebuilds it with the named fields replaced. An event that is none of the three symbols has no
effect. -/

namespace WeftWarp
namespace Combat

def comboMinGap : Int := 6

def comboMaxGap : Int := 18

def invulnTicks : Int := 30

def enemyMaxHp : Int := 100

def damageOf (stage : Int) : Int := if stage = 0 then 10 else if stage = 1 then 15 else 25

structure State where
  tick : Int
  combo : Int
  lastAttack : Int
  hp : Int
  spawn : Int
  alive : Bool
  deriving DecidableEq

def initialState : State := ⟨0, 0, 0, 0, 0, false⟩

inductive Event where
  | tick
  | spawn
  | attack
  | other
  deriving DecidableEq

inductive Output where
  | swing (stage : Int)
  | blocked
  | hit (dmg : Int)
  | death
  | comboDrop
  | whiff
  deriving DecidableEq

def resolveSwing (s : State) (stage : Int) : State × List Output :=
  if !s.alive then (s, [.swing stage])
  else if s.tick < s.spawn + invulnTicks then (s, [.swing stage, .blocked])
  else
    let dmg := damageOf stage
    if s.hp ≤ dmg then ({ s with hp := 0, alive := false }, [.swing stage, .hit dmg, .death])
    else ({ s with hp := s.hp - dmg }, [.swing stage, .hit dmg])

def combatStep (s : State) : Event → State × List Output
  | .tick =>
    let s := { s with tick := s.tick + 1 }
    if 0 < s.combo ∧ s.lastAttack + comboMaxGap < s.tick then ({ s with combo := 0 }, [.comboDrop]) else (s, [])
  | .spawn => ({ s with alive := true, hp := enemyMaxHp, spawn := s.tick }, [])
  | .attack =>
    if s.combo = 0 then resolveSwing { s with combo := 1, lastAttack := s.tick } 0
    else
      let gap := s.tick - s.lastAttack
      if comboMinGap ≤ gap ∧ gap ≤ comboMaxGap then
        let stage := s.combo
        let next := if 2 ≤ stage then 0 else stage + 1
        resolveSwing { s with combo := next, lastAttack := s.tick } stage
      else ({ s with combo := 0 }, [.whiff])
  | .other => (s, [])

def combatReplay (events : List Event) : State × List Output :=
  Replay.replay combatStep (initialState, []) events

end Combat
end WeftWarp
