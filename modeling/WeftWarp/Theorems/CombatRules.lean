import Mathlib.Algebra.Ring.Int.Defs
import WeftWarp.Combat

/-! # The rules of combat

What holds in every state that a replay reaches, and what its log shows. The log of the source has neither ticks nor
spawns, so the rules speak of a timeline that has both. -/

namespace WeftWarp
namespace Combat

open Replay

/-! ## Timelines -/

/-- What happens at a tick: a spawn, or an output of the log. -/
inductive Mark where
  | spawn
  | out (o : Output)
  deriving DecidableEq

/-- A mark with its tick. -/
structure Entry where
  tick : Int
  mark : Mark
  deriving DecidableEq

namespace Entry

/-- The entry is a spawn. -/
def isSpawn (e : Entry) : Bool := e.mark = .spawn

/-- What stands in the log. -/
def logged (e : Entry) : Option Output :=
  match e.mark with
  | .spawn => none
  | .out o => some o

/-- The damage of a hit. -/
def damage (e : Entry) : Int :=
  match e.mark with
  | .out (.hit dmg) => dmg
  | _ => 0

/-- Neither a swing nor the end of a combo. -/
def calm (e : Entry) : Bool :=
  match e.mark with
  | .out (.swing _) | .out .whiff | .out .comboDrop => false
  | _ => true

end Entry

/-- A step with its entries of the timeline. -/
def markedStep (s : State) (e : Event) : State × List Entry :=
  let r := combatStep s e
  (r.1, (if e = .spawn then [⟨r.1.tick, .spawn⟩] else []) ++ r.2.map fun o => ⟨r.1.tick, .out o⟩)

/-- All entries of a replay. -/
def timeline (events : List Event) : List Entry := (replay markedStep (initialState, []) events).2

/-- The damage of the hits behind the last spawn. -/
def damageSinceSpawn (past : List Entry) : Int := ((since Entry.isSpawn past).map Entry.damage).sum

theorem replay_marked (events : List Event) :
    (replay markedStep (initialState, []) events).1 = (combatReplay events).1 ∧
      (timeline events).filterMap Entry.logged = (combatReplay events).2 := by
  refine replay_filterMap Entry.logged (fun s e => rfl) (fun s e => ?_) initialState events
  have outputs (tick : Int) (os : List Output) : (os.map fun o => (⟨tick, .out o⟩ : Entry)).filterMap Entry.logged = os := by
    rw [List.filterMap_map]
    exact List.filterMap_some
  rw [markedStep, List.filterMap_append, outputs]
  split <;> rfl

/-! ## What an event does -/

/-- The stage at which an attack swings, and the combo behind it. -/
inductive Swings (s : State) : Int → Int → Prop where
  | first (closed : s.combo = 0) : Swings s 0 1
  | next (opened : s.combo ≠ 0) (early : comboMinGap ≤ s.tick - s.lastAttack)
      (late : s.tick - s.lastAttack ≤ comboMaxGap) : Swings s s.combo (if 2 ≤ s.combo then 0 else s.combo + 1)

/-- The outcomes of `resolve-swing`. -/
inductive Resolves (s : State) (stage : Int) : State → List Output → Prop where
  | miss (dead : s.alive = false) : Resolves s stage s [.swing stage]
  | blocked (young : s.tick < s.spawn + invulnTicks) : Resolves s stage s [.swing stage, .blocked]
  | hit (alive : s.alive = true) (old : s.spawn + invulnTicks ≤ s.tick) (survives : damageOf stage < s.hp) :
      Resolves s stage { s with hp := s.hp - damageOf stage } [.swing stage, .hit (damageOf stage)]
  | kill (alive : s.alive = true) (old : s.spawn + invulnTicks ≤ s.tick) (overkill : s.hp ≤ damageOf stage) :
      Resolves s stage { s with hp := 0, alive := false } [.swing stage, .hit (damageOf stage), .death]

/-- What an event can do to the state, and its entries. -/
inductive Does (s : State) : State → List Entry → Prop where
  | idle : Does s s []
  | tick (kept : 0 < s.combo → s.tick + 1 ≤ s.lastAttack + comboMaxGap) : Does s { s with tick := s.tick + 1 } []
  | drop : Does s { s with tick := s.tick + 1, combo := 0 } [⟨s.tick + 1, .out .comboDrop⟩]
  | spawn : Does s { s with alive := true, hp := enemyMaxHp, spawn := s.tick } [⟨s.tick, .spawn⟩]
  | whiff : Does s { s with combo := 0 } [⟨s.tick, .out .whiff⟩]
  | attack {stage next : Int} (swings : Swings s stage next) {s' : State} {outs : List Output}
      (resolves : Resolves { s with combo := next, lastAttack := s.tick } stage s' outs) :
      Does s s' (outs.map fun o => ⟨s.tick, .out o⟩)

theorem resolves_resolveSwing (s : State) (stage : Int) :
    Resolves s stage (resolveSwing s stage).1 (resolveSwing s stage).2 := by
  rw [resolveSwing]
  split
  · rename_i dead
    exact .miss (by simpa using dead)
  · rename_i alive
    split
    · rename_i young
      exact .blocked young
    · rename_i old
      dsimp only
      split
      · rename_i overkill
        exact .kill (by simpa using alive) (Int.not_lt.mp old) overkill
      · rename_i survives
        exact .hit (by simpa using alive) (Int.not_lt.mp old) (Int.not_le.mp survives)

theorem Resolves.tick_eq {s s' : State} {stage : Int} {outs : List Output} (resolves : Resolves s stage s' outs) :
    s'.tick = s.tick := by
  cases resolves <;> rfl

theorem does_markedStep (s : State) (e : Event) : Does s (markedStep s e).1 (markedStep s e).2 := by
  cases e with
  | tick =>
    rw [markedStep, combatStep]
    dsimp only
    split
    · exact .drop
    · rename_i kept
      refine .tick fun positive => ?_
      by_contra late
      exact kept ⟨positive, Int.not_le.mp late⟩
  | spawn => exact .spawn
  | attack =>
    have swing : ∀ stage next, Swings s stage next → combatStep s .attack =
        resolveSwing { s with combo := next, lastAttack := s.tick } stage →
        Does s (markedStep s .attack).1 (markedStep s .attack).2 := by
      intro stage next swings resolved
      have resolves := resolves_resolveSwing { s with combo := next, lastAttack := s.tick } stage
      rw [markedStep, resolved, if_neg (by decide), List.nil_append, resolves.tick_eq]
      exact .attack swings resolves
    by_cases closed : s.combo = 0
    · exact swing 0 1 (.first closed) (by rw [combatStep, if_pos closed])
    · by_cases inside : comboMinGap ≤ s.tick - s.lastAttack ∧ s.tick - s.lastAttack ≤ comboMaxGap
      · exact swing _ _ (.next closed inside.1 inside.2) (by rw [combatStep, if_neg closed]; exact if_pos inside)
      · have whiffs : combatStep s .attack = ({ s with combo := 0 }, [.whiff]) := by
          rw [combatStep, if_neg closed]
          exact if_neg inside
        rw [markedStep, whiffs]
        exact .whiff
  | other => exact .idle

/-- An invariant of states and timelines that everything an event does keeps. -/
theorem replay_keeps (Inv : State → List Entry → Prop) (init : Inv initialState [])
    (keeps : ∀ s past s' new, Inv s past → Does s s' new → Inv s' (past ++ new)) (events : List Event) :
    Inv (combatReplay events).1 (timeline events) := by
  rw [← (replay_marked events).1]
  exact Replay.invariant (fun _ => Inv) init (fun _ s past e inv => keeps s past _ _ inv (does_markedStep s e)) events

/-! ## Clocks -/

/-- The bounds of the counters. -/
structure Clock (s : State) : Prop where
  comboNonneg : 0 ≤ s.combo
  comboLe : s.combo ≤ 2
  lastAttackLe : s.lastAttack ≤ s.tick
  spawnLe : s.spawn ≤ s.tick
  window : 0 < s.combo → s.tick ≤ s.lastAttack + comboMaxGap

theorem Clock.resolves {s s' : State} {stage : Int} {outs : List Output} (clock : Clock s)
    (resolves : Resolves s stage s' outs) : Clock s' := by
  cases resolves <;> exact ⟨clock.comboNonneg, clock.comboLe, clock.lastAttackLe, clock.spawnLe, clock.window⟩

theorem Clock.does {s s' : State} {new : List Entry} (clock : Clock s) (does : Does s s' new) : Clock s' := by
  obtain ⟨nonneg, le, last, spawn, window⟩ := clock
  have two : (0 : Int) ≤ 2 := by decide
  cases does with
  | idle => exact ⟨nonneg, le, last, spawn, window⟩
  | tick kept =>
    refine ⟨nonneg, le, ?_, ?_, kept⟩
    · dsimp only
      omega
    · dsimp only
      omega
  | drop =>
    refine ⟨Int.le_refl 0, two, ?_, ?_, fun positive => absurd positive (Int.lt_irrefl 0)⟩
    · dsimp only
      omega
    · dsimp only
      omega
  | spawn => exact ⟨nonneg, le, last, Int.le_refl _, window⟩
  | whiff => exact ⟨Int.le_refl 0, two, last, spawn, fun positive => absurd positive (Int.lt_irrefl 0)⟩
  | @attack stage next swings _ _ resolves =>
    have bounds : 0 ≤ next ∧ next ≤ 2 := by
      cases swings with
      | first closed => decide
      | next opened early late =>
        split
        · decide
        · omega
    have swung : Clock { s with combo := next, lastAttack := s.tick } := by
      refine ⟨bounds.1, bounds.2, Int.le_refl _, spawn, fun _ => ?_⟩
      rw [comboMaxGap]
      dsimp only
      omega
    exact swung.resolves resolves

/-! ## Health -/

section Entries
variable {past : List Entry} {x : Entry}

theorem damageSinceSpawn_concat (quiet : x.isSpawn = false) :
    damageSinceSpawn (past ++ [x]) = damageSinceSpawn past + x.damage := by
  rw [damageSinceSpawn, since_concat, quiet, if_neg Bool.false_ne_true, List.map_append, List.sum_append]
  simp [damageSinceSpawn]

theorem mem_since_concat (quiet : x.isSpawn = false) {e : Entry} :
    e ∈ since Entry.isSpawn (past ++ [x]) ↔ e ∈ since Entry.isSpawn past ∨ e = x := by
  rw [since_concat, quiet, if_neg Bool.false_ne_true, List.mem_append, List.mem_singleton]

theorem mem_of_spawn_concat {tick : Int} {o : Output} {e : Entry} (mem : e ∈ past ++ [⟨tick, .out o⟩])
    (spawn : e.mark = .spawn) : e ∈ past := by
  rcases List.mem_append.mp mem with mem | mem
  · exact mem
  · rw [List.mem_singleton.mp mem] at spawn
    cases spawn

end Entries

/-- No two deaths without a spawn between them. -/
def DeathRule (front : List Entry) (x : Entry) : Prop :=
  x.mark = .out .death → ∀ e ∈ since Entry.isSpawn front, e.mark ≠ .out .death

/-- The hit points follow from the entries. -/
structure Health (s : State) (past : List Entry) : Prop where
  hpNonneg : 0 ≤ s.hp
  hpLe : s.hp ≤ enemyMaxHp
  alive : s.alive = true ↔ 0 < s.hp
  left : (∃ e ∈ past, e.mark = .spawn) → s.hp = max 0 (enemyMaxHp - damageSinceSpawn past)
  living : s.alive = true → ∀ e ∈ since Entry.isSpawn past, e.mark ≠ .out .death
  deaths : Throughout DeathRule past

section Health
variable {s s' : State} {past : List Entry} {tick : Int}

theorem Health.same (health : Health s past) (hp : s'.hp = s.hp) (alive : s'.alive = s.alive) : Health s' past := by
  refine ⟨?_, ?_, ?_, ?_, ?_, health.deaths⟩
  · rw [hp]
    exact health.hpNonneg
  · rw [hp]
    exact health.hpLe
  · rw [hp, alive]
    exact health.alive
  · rw [hp]
    exact health.left
  · rw [alive]
    exact health.living

/-- An entry that is neither a hit nor a death. -/
theorem Health.log (health : Health s past) {o : Output} (noDeath : o ≠ .death) (noHit : ∀ dmg, o ≠ .hit dmg) :
    Health s (past ++ [⟨tick, .out o⟩]) := by
  have harmless : Entry.damage ⟨tick, .out o⟩ = 0 := by
    cases o with
    | hit dmg => exact absurd rfl (noHit dmg)
    | _ => rfl
  refine { health with left := ?_, living := ?_, deaths := ?_ }
  · rintro ⟨e, mem, spawn⟩
    rw [damageSinceSpawn_concat rfl, harmless, Int.add_zero]
    exact health.left ⟨e, mem_of_spawn_concat mem spawn, spawn⟩
  · intro alive e mem
    rcases (mem_since_concat rfl).mp mem with mem | rfl
    · exact health.living alive e mem
    · simpa using noDeath
  · refine throughout_concat.mpr ⟨health.deaths, fun death => ?_⟩
    exact absurd (Mark.out.inj death) noDeath

theorem damageOf_pos (stage : Int) : 0 < damageOf stage := by
  rw [damageOf]
  split
  · decide
  · split <;> decide

theorem Health.hit (health : Health s past) {dmg : Int} (hp : s'.hp = max 0 (s.hp - dmg)) (harms : 0 < dmg)
    (wasAlive : s.alive = true) (alive : s'.alive = true ↔ 0 < s'.hp) : Health s' (past ++ [⟨tick, .out (.hit dmg)⟩]) := by
  obtain ⟨nonneg, le, wasIff, left, living, deaths⟩ := health
  have was := wasIff.mp wasAlive
  refine ⟨?_, ?_, alive, ?_, ?_, ?_⟩
  · omega
  · omega
  · rintro ⟨e, mem, spawn⟩
    have before := left ⟨e, mem_of_spawn_concat mem spawn, spawn⟩
    have dealt : Entry.damage ⟨tick, .out (.hit dmg)⟩ = dmg := rfl
    rw [damageSinceSpawn_concat rfl, dealt]
    omega
  · intro _ e mem
    rcases (mem_since_concat rfl).mp mem with mem | rfl
    · exact living wasAlive e mem
    · simp
  · refine throughout_concat.mpr ⟨deaths, fun death => ?_⟩
    cases death

theorem Health.death (health : Health s past) (dead : s.alive = false)
    (none : ∀ e ∈ since Entry.isSpawn past, e.mark ≠ .out .death) : Health s (past ++ [⟨tick, .out .death⟩]) := by
  refine { health with left := ?_, living := ?_, deaths := ?_ }
  · rintro ⟨e, mem, spawn⟩
    rw [damageSinceSpawn_concat rfl]
    exact (health.left ⟨e, mem_of_spawn_concat mem spawn, spawn⟩).trans (by simp [Entry.damage])
  · intro alive
    rw [dead] at alive
    cases alive
  · exact throughout_concat.mpr ⟨health.deaths, fun _ => none⟩

theorem Health.spawn (health : Health s past) :
    Health { s with alive := true, hp := enemyMaxHp, spawn := s.tick } (past ++ [⟨tick, .spawn⟩]) := by
  have fresh : since Entry.isSpawn (past ++ [⟨tick, .spawn⟩]) = [] := by rw [since_concat]; rfl
  have full : (0 : Int) < enemyMaxHp := by decide
  refine ⟨Int.le_of_lt full, Int.le_refl _, ⟨fun _ => full, fun _ => rfl⟩, fun _ => ?_, fun _ e mem => ?_, ?_⟩
  · rw [damageSinceSpawn, fresh]
    change enemyMaxHp = max 0 (enemyMaxHp - 0)
    decide
  · rw [fresh] at mem
    cases mem
  · exact throughout_concat.mpr ⟨health.deaths, fun death => nomatch death⟩

theorem Health.resolves {stage : Int} {outs : List Output} (health : Health s past)
    (resolves : Resolves s stage s' outs) : Health s' (past ++ outs.map fun o => ⟨tick, .out o⟩) := by
  have swung : Health s (past ++ [⟨tick, .out (.swing stage)⟩]) := health.log (by simp) (by simp)
  have harms := damageOf_pos stage
  cases resolves with
  | miss dead => exact swung
  | blocked young =>
    have blocked : Health s (past ++ [⟨tick, .out (.swing stage)⟩] ++ [⟨tick, .out .blocked⟩]) :=
      swung.log (by simp) (by simp)
    simpa using blocked
  | hit alive old survives =>
    have hit : Health { s with hp := s.hp - damageOf stage }
        (past ++ [⟨tick, .out (.swing stage)⟩] ++ [⟨tick, .out (.hit (damageOf stage))⟩]) := by
      refine swung.hit ?_ harms alive ?_
      · dsimp only
        omega
      · simp only [alive, true_iff]
        omega
    simpa using hit
  | kill alive old overkill =>
    have hit : Health { s with hp := 0, alive := false }
        (past ++ [⟨tick, .out (.swing stage)⟩] ++ [⟨tick, .out (.hit (damageOf stage))⟩]) := by
      refine swung.hit ?_ harms alive (by simp)
      dsimp only
      omega
    -- The enemy was alive at the swing, and a hit is no death.
    have none : ∀ e ∈ since Entry.isSpawn (past ++ [⟨tick, .out (.swing stage)⟩] ++
        [⟨tick, .out (.hit (damageOf stage))⟩]), e.mark ≠ .out .death := by
      intro e mem
      rcases (mem_since_concat rfl).mp mem with mem | rfl
      · exact swung.living alive e mem
      · simp
    have death : Health { s with hp := 0, alive := false } (past ++ [⟨tick, .out (.swing stage)⟩] ++
        [⟨tick, .out (.hit (damageOf stage))⟩] ++ [⟨tick, .out .death⟩]) := hit.death rfl none
    simpa using death

theorem Health.does {new : List Entry} (health : Health s past) (does : Does s s' new) : Health s' (past ++ new) := by
  cases does with
  | idle => rwa [List.append_nil]
  | tick kept =>
    rw [List.append_nil]
    exact health.same rfl rfl
  | drop => exact (health.log (by simp) (by simp)).same rfl rfl
  | spawn => exact health.spawn
  | whiff => exact (health.log (by simp) (by simp)).same rfl rfl
  | @attack stage next swings _ _ resolves =>
    have swung : Health { s with combo := next, lastAttack := s.tick } past := health.same rfl rfl
    exact swung.resolves resolves

end Health

/-! ## Combos -/

/-- A later stage of a combo follows the stage before it. -/
def SwingRule (front : List Entry) (x : Entry) : Prop :=
  ∀ k, x.mark = .out (.swing k) → 1 ≤ k → ∃ before e between, front = before ++ e :: between ∧
    e.mark = .out (.swing (k - 1)) ∧ comboMinGap ≤ x.tick - e.tick ∧ x.tick - e.tick ≤ comboMaxGap ∧
    ∀ y ∈ between, y.calm = true

/-- Combos follow from the entries. -/
structure Combos (s : State) (past : List Entry) : Prop where
  /-- An open combo goes back to its last swing. -/
  swung : 0 < s.combo → ∃ before between,
    past = before ++ ⟨s.lastAttack, .out (.swing (s.combo - 1))⟩ :: between ∧ ∀ y ∈ between, y.calm = true
  swings : Throughout SwingRule past

section Combos
variable {s s' : State} {past : List Entry} {tick : Int}

theorem Combos.same (combos : Combos s past) (combo : s'.combo = s.combo) (last : s'.lastAttack = s.lastAttack) :
    Combos s' past := by
  refine ⟨?_, combos.swings⟩
  rw [combo, last]
  exact combos.swung

theorem Combos.log (combos : Combos s past) {x : Entry} (calm : x.calm = true) : Combos s (past ++ [x]) := by
  refine ⟨fun positive => ?_, throughout_concat.mpr ⟨combos.swings, fun k swing => ?_⟩⟩
  · obtain ⟨before, between, rfl, quiet⟩ := combos.swung positive
    refine ⟨before, between ++ [x], by simp, fun y mem => ?_⟩
    rcases List.mem_append.mp mem with mem | mem
    · exact quiet y mem
    · rwa [List.mem_singleton.mp mem]
  · simp [Entry.calm, swing] at calm

theorem Combos.close (combos : Combos s past) (closed : s'.combo = 0) {x : Entry}
    (noSwing : ∀ k, x.mark ≠ .out (.swing k)) : Combos s' (past ++ [x]) := by
  refine ⟨fun positive => ?_, throughout_concat.mpr ⟨combos.swings, fun k swing => absurd swing (noSwing k)⟩⟩
  rw [closed] at positive
  cases positive

theorem Combos.swing {stage next : Int} (combos : Combos s past) (swings : Swings s stage next) :
    Combos { s with combo := next, lastAttack := s.tick } (past ++ [⟨s.tick, .out (.swing stage)⟩]) := by
  refine ⟨fun positive => ⟨past, [], ?_, by simp⟩, throughout_concat.mpr ⟨combos.swings, ?_⟩⟩
  · -- An open combo is one stage ahead of the swing.
    cases swings with
    | first closed => rfl
    | next opened early late =>
      dsimp only at positive ⊢
      split at positive
      · cases positive
      · rename_i short
        rw [if_neg short, Int.add_sub_cancel]
  · intro k swing later
    obtain rfl : stage = k := Output.swing.inj (Mark.out.inj swing)
    cases swings with
    | first closed => cases later
    | next opened early late =>
      obtain ⟨before, between, split, calm⟩ := combos.swung (by omega)
      exact ⟨before, _, between, split, rfl, early, late, calm⟩

theorem Combos.resolves {stage : Int} {outs : List Output}
    (combos : Combos s (past ++ [⟨tick, .out (.swing stage)⟩])) (resolves : Resolves s stage s' outs) :
    Combos s' (past ++ outs.map fun o => ⟨tick, .out o⟩) := by
  cases resolves with
  | miss dead => exact combos
  | blocked young => simpa using combos.log (x := ⟨tick, .out .blocked⟩) rfl
  | hit alive old survives =>
    have hit := combos.log (x := ⟨tick, .out (.hit (damageOf stage))⟩) rfl
    rw [List.append_assoc] at hit
    exact hit.same rfl rfl
  | kill alive old overkill =>
    have hit := combos.log (x := ⟨tick, .out (.hit (damageOf stage))⟩) rfl
    have death := hit.log (x := ⟨tick, .out .death⟩) rfl
    rw [List.append_assoc, List.append_assoc] at death
    exact death.same rfl rfl

theorem Combos.does {new : List Entry} (combos : Combos s past) (does : Does s s' new) :
    Combos s' (past ++ new) := by
  cases does with
  | idle => rwa [List.append_nil]
  | tick kept =>
    rw [List.append_nil]
    exact combos.same rfl rfl
  | drop => exact combos.close rfl (by simp)
  | spawn => exact (combos.log rfl).same rfl rfl
  | whiff => exact combos.close rfl (by simp)
  | attack swings resolves => exact (combos.swing swings).resolves resolves

end Combos

/-! ## Spawns -/

/-- No hit comes while a spawned enemy is invulnerable. -/
def HitRule (front : List Entry) (x : Entry) : Prop :=
  ∀ dmg, x.mark = .out (.hit dmg) → ∀ e ∈ front, e.mark = .spawn → e.tick + invulnTicks ≤ x.tick

/-- The last spawn, and the hits behind every spawn. -/
structure Spawns (s : State) (past : List Entry) : Prop where
  latest : ∀ e ∈ past, e.mark = .spawn → e.tick ≤ s.spawn
  hits : Throughout HitRule past

section Spawns
variable {s s' : State} {past : List Entry} {tick : Int}

theorem Spawns.same (spawns : Spawns s past) (spawn : s'.spawn = s.spawn) : Spawns s' past := by
  refine ⟨?_, spawns.hits⟩
  rw [spawn]
  exact spawns.latest

/-- An entry of the log; a hit is late enough. -/
theorem Spawns.log (spawns : Spawns s past) {o : Output} (old : ∀ dmg, o = .hit dmg → s.spawn + invulnTicks ≤ tick) :
    Spawns s (past ++ [⟨tick, .out o⟩]) := by
  refine ⟨fun e mem spawn => spawns.latest e (mem_of_spawn_concat mem spawn) spawn, ?_⟩
  refine throughout_concat.mpr ⟨spawns.hits, fun dmg hit e mem spawn => ?_⟩
  have early := spawns.latest e mem spawn
  have late := old dmg (Mark.out.inj hit)
  dsimp only
  omega

theorem Spawns.resolves {stage : Int} {outs : List Output} (spawns : Spawns s past)
    (resolves : Resolves s stage s' outs) : Spawns s' (past ++ outs.map fun o => ⟨s.tick, .out o⟩) := by
  have swung : Spawns s (past ++ [⟨s.tick, .out (.swing stage)⟩]) := spawns.log (by simp)
  cases resolves with
  | miss dead => exact swung
  | blocked young =>
    have blocked : Spawns s (past ++ [⟨s.tick, .out (.swing stage)⟩] ++ [⟨s.tick, .out .blocked⟩]) := swung.log (by simp)
    simpa using blocked
  | hit alive old survives =>
    have hit : Spawns s (past ++ [⟨s.tick, .out (.swing stage)⟩] ++ [⟨s.tick, .out (.hit (damageOf stage))⟩]) :=
      swung.log fun _ _ => old
    rw [List.append_assoc] at hit
    exact hit.same rfl
  | kill alive old overkill =>
    have hit : Spawns s (past ++ [⟨s.tick, .out (.swing stage)⟩] ++ [⟨s.tick, .out (.hit (damageOf stage))⟩]) :=
      swung.log fun _ _ => old
    have death : Spawns s (past ++ [⟨s.tick, .out (.swing stage)⟩] ++ [⟨s.tick, .out (.hit (damageOf stage))⟩] ++
        [⟨s.tick, .out .death⟩]) := hit.log (by simp)
    rw [List.append_assoc, List.append_assoc] at death
    exact death.same rfl

theorem Spawns.does {new : List Entry} (spawns : Spawns s past) (spawnLe : s.spawn ≤ s.tick) (does : Does s s' new) :
    Spawns s' (past ++ new) := by
  cases does with
  | idle => rwa [List.append_nil]
  | tick kept =>
    rw [List.append_nil]
    exact spawns.same rfl
  | drop => exact (spawns.log (by simp)).same rfl
  | spawn =>
    refine ⟨fun e mem spawn => ?_, throughout_concat.mpr ⟨spawns.hits, fun dmg hit => nomatch hit⟩⟩
    rcases List.mem_append.mp mem with mem | mem
    · exact Int.le_trans (spawns.latest e mem spawn) spawnLe
    · obtain rfl := List.mem_singleton.mp mem
      exact Int.le_refl _
  | whiff => exact (spawns.log (by simp)).same rfl
  | @attack stage next swings _ _ resolves =>
    have swung : Spawns { s with combo := next, lastAttack := s.tick } past := spawns.same rfl
    exact swung.resolves resolves

end Spawns

/-! ## Replays -/

theorem clock_replay (events : List Event) : Clock (combatReplay events).1 := by
  have initial : Clock initialState := ⟨by decide, by decide, by decide, by decide, by decide⟩
  exact replay_keeps (fun s _ => Clock s) initial (fun _ _ _ _ clock does => clock.does does) events

theorem health_replay (events : List Event) : Health (combatReplay events).1 (timeline events) := by
  have initial : Health initialState [] :=
    ⟨by decide, by decide, by decide, by simp, by simp, throughout_nil⟩
  exact replay_keeps Health initial (fun _ _ _ _ health does => health.does does) events

theorem combos_replay (events : List Event) : Combos (combatReplay events).1 (timeline events) := by
  have initial : Combos initialState [] := ⟨fun positive => (nomatch positive), throughout_nil⟩
  exact replay_keeps Combos initial (fun _ _ _ _ combos does => combos.does does) events

theorem spawns_replay (events : List Event) : Spawns (combatReplay events).1 (timeline events) := by
  have initial : Clock initialState ∧ Spawns initialState [] :=
    ⟨⟨by decide, by decide, by decide, by decide, by decide⟩, by simp, throughout_nil⟩
  refine (replay_keeps (fun s past => Clock s ∧ Spawns s past) initial ?_ events).2
  rintro s past s' new ⟨clock, spawns⟩ does
  exact ⟨clock.does does, spawns.does clock.spawnLe does⟩

theorem exists_spawn {events : List Event} (spawn : .spawn ∈ events) : ∃ e ∈ timeline events, e.mark = .spawn := by
  refine Replay.invariant (fun events (_ : State) (past : List Entry) => .spawn ∈ events → ∃ e ∈ past, e.mark = .spawn)
    (fun mem => nomatch mem) ?_ events spawn
  intro events s past e inv mem
  rcases List.mem_append.mp mem with mem | mem
  · obtain ⟨e', mem', mark⟩ := inv mem
    exact ⟨e', List.mem_append_left _ mem', mark⟩
  · obtain rfl := List.mem_singleton.mp mem
    exact ⟨_, List.mem_append_right _ List.mem_cons_self, rfl⟩

/-- The invariants of the state, its health as the log tells it, and a spawn between any two deaths. -/
theorem combatReplay_state (events : List Event) :
    ((combatReplay events).1.combo ≤ 2 ∧ (0 ≤ (combatReplay events).1.hp ∧ (combatReplay events).1.hp ≤ 100) ∧
      ((combatReplay events).1.alive = true ↔ 0 < (combatReplay events).1.hp) ∧
      (combatReplay events).1.lastAttack ≤ (combatReplay events).1.tick ∧
      (combatReplay events).1.spawn ≤ (combatReplay events).1.tick ∧
      (0 < (combatReplay events).1.combo →
        (combatReplay events).1.tick ≤ (combatReplay events).1.lastAttack + 18)) ∧
    (timeline events).filterMap Entry.logged = (combatReplay events).2 ∧
    (.spawn ∈ events → (combatReplay events).1.hp = max 0 (100 - damageSinceSpawn (timeline events))) ∧
    ∀ before first between second after, timeline events = before ++ first :: (between ++ second :: after) →
      first.mark = .out .death → second.mark = .out .death → ∃ e ∈ between, e.mark = .spawn := by
  have clock := clock_replay events
  have health := health_replay events
  refine ⟨⟨clock.comboLe, ⟨health.hpNonneg, health.hpLe⟩, health.alive, clock.lastAttackLe, clock.spawnLe, clock.window⟩,
    (replay_marked events).2, fun spawn => health.left (exists_spawn spawn), ?_⟩
  intro before first between second after split firstDies secondDies
  by_contra none
  rw [← List.cons_append, ← List.append_assoc] at split
  -- Without a spawn the first death is still among the entries that the second one looks at.
  have seen : first ∈ since Entry.isSpawn (before ++ first :: between) := by
    refine mem_since (by simp [Entry.isSpawn, firstDies]) fun y mem => ?_
    have other : y.mark ≠ .spawn := fun spawn => none ⟨y, mem, spawn⟩
    simpa [Entry.isSpawn] using other
  exact health.deaths _ second after split secondDies first seen firstDies

/-- Combos go stage by stage within their window, and a fresh enemy takes no hit. -/
theorem combatReplay_log (events : List Event) :
    (timeline events).filterMap Entry.logged = (combatReplay events).2 ∧
    (∀ front x back k, timeline events = front ++ x :: back → x.mark = .out (.swing k) → 1 ≤ k →
      ∃ before e between, front = before ++ e :: between ∧ e.mark = .out (.swing (k - 1)) ∧
        6 ≤ x.tick - e.tick ∧ x.tick - e.tick ≤ 18 ∧
        ∀ y ∈ between, (∀ j, y.mark ≠ .out (.swing j)) ∧ y.mark ≠ .out .whiff ∧ y.mark ≠ .out .comboDrop) ∧
    ∀ front x back dmg, timeline events = front ++ x :: back → x.mark = .out (.hit dmg) →
      ∀ e ∈ front, e.mark = .spawn → e.tick + 30 ≤ x.tick := by
  refine ⟨(replay_marked events).2, ?_, fun front x back dmg split => (spawns_replay events).hits front x back split dmg⟩
  intro front x back k split swing later
  obtain ⟨before, e, between, rest, mark, early, late, calm⟩ := (combos_replay events).swings front x back split k swing later
  refine ⟨before, e, between, rest, mark, early, late, fun y mem => ?_⟩
  have quiet := calm y mem
  refine ⟨fun j swung => ?_, fun whiff => ?_, fun drop => ?_⟩
  · simp [Entry.calm, swung] at quiet
  · simp [Entry.calm, whiff] at quiet
  · simp [Entry.calm, drop] at quiet

end Combat
end WeftWarp
