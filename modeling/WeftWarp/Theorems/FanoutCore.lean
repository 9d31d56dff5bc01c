import WeftWarp.Fanout

/-! What is assumed of the cores behind the server, and a core that keeps plain lists. -/

namespace WeftWarp.Fanout

variable {K : Type}

/-- Rooms are sets of connections: `sub` adds to one, `unsub` removes from one, and nothing else changes them. -/
structure PlainRooms (core : Core K) (member : K → UInt64 → UInt64 → Prop) : Prop where
  sub : ∀ k room conn room' conn',
    member (core.sub room conn k) room' conn' ↔ member k room' conn' ∨ room' = room ∧ conn' = conn
  unsub : ∀ k room conn room' conn',
    member (core.unsub room conn k) room' conn' ↔ member k room' conn' ∧ ¬ (room' = room ∧ conn' = conn)
  allocRoom : ∀ k, member (core.allocRoom k).2 = member k
  entityMoveV : ∀ k conn x y z vx vy vz rtt, member (core.entityMoveV conn x y z vx vy vz rtt k) = member k
  entityRemove : ∀ k conn, member (core.entityRemove conn k) = member k
  applyPacket : ∀ k room frame, member (core.applyPacket room frame k).2 = member k

/-- The targets of a publication are the members of the room except the publisher. -/
def TargetsMembers (core : Core K) (member : K → UInt64 → UInt64 → Prop) : Prop :=
  ∀ k room conn, ∃ targets, core.pubTargets room conn k = some targets ∧
    ∀ target, target ∈ targets ↔ member k room target ∧ target ≠ conn

/-- Connections have at most one entity: moving places it, if anything, and removing takes it away. -/
structure PlainEntities (core : Core K) (entity : K → UInt64 → Prop) : Prop where
  entityMoveV : ∀ k conn x y z vx vy vz rtt conn', entity (core.entityMoveV conn x y z vx vy vz rtt k) conn' →
    entity k conn' ∨ conn' = conn
  entityRemove : ∀ k conn conn', entity (core.entityRemove conn k) conn' ↔ entity k conn' ∧ conn' ≠ conn
  sub : ∀ k room conn, entity (core.sub room conn k) = entity k
  unsub : ∀ k room conn, entity (core.unsub room conn k) = entity k
  allocRoom : ∀ k, entity (core.allocRoom k).2 = entity k
  applyPacket : ∀ k room frame, entity (core.applyPacket room frame k).2 = entity k

/-- Room ids are fresh: `used` holds of the ids given out so far. -/
structure FreshRooms (core : Core K) (used : K → UInt64 → Prop) : Prop where
  fresh : ∀ k room, (core.allocRoom k).1 = some room → room ≠ sentinel → ¬ used k room ∧ used (core.allocRoom k).2 room
  allocRoom : ∀ k room, used k room → used (core.allocRoom k).2 room
  sub : ∀ k room conn, used (core.sub room conn k) = used k
  unsub : ∀ k room conn, used (core.unsub room conn k) = used k
  entityMoveV : ∀ k conn x y z vx vy vz rtt, used (core.entityMoveV conn x y z vx vy vz rtt k) = used k
  entityRemove : ∀ k conn, used (core.entityRemove conn k) = used k
  applyPacket : ∀ k room frame, used (core.applyPacket room frame k).2 = used k

/-- The header of a subscription. -/
def subHeader (topic : Char) : Bytes := ascii ['S', 'U', 'B', ' ', topic, '\n']

/-! ### A core of lists -/

/-- A core that keeps lists. -/
structure Lists where
  /-- The next room id. -/
  next : UInt64 := 0
  members : List (UInt64 × UInt64) := []
  entities : List UInt64 := []
  packets : List (UInt64 × Bytes) := []
  deriving DecidableEq, Repr

/-- Ids are given out in order, up to the sentinel, at which allocation fails. Everyone with an entity is in every
    zone, every packet is accepted, and connections have no delay. -/
def listCore : Core Lists where
  allocRoom k := if k.next = sentinel then (none, k) else (some k.next, { k with next := k.next + 1 })
  sub room conn k := { k with members := (room, conn) :: k.members }
  unsub room conn k := { k with members := k.members.filter fun m => m ≠ (room, conn) }
  pubTargets room conn k := some ((k.members.filter fun m => m.1 = room ∧ m.2 ≠ conn).map Prod.snd)
  entityMoveV conn _ _ _ _ _ _ _ k := { k with entities := conn :: k.entities }
  entityRemove conn k := { k with entities := k.entities.filter fun c => c ≠ conn }
  zoneTargets conn _ _ _ k := some (k.entities.filter fun c => c ≠ conn)
  applyPacket room frame k := (true, { k with packets := k.packets ++ [(room, frame)] })
  history room k := (k.packets.filter fun p => p.1 = room).map Prod.snd
  getRtt _ _ := 0

/-- The same core, but with rooms without end: after the last id it starts again from the first. -/
def loopCore : Core Lists :=
  { listCore with allocRoom := fun k => (some (if k.next = sentinel then 0 else k.next), { k with next := k.next + 1 }) }

theorem allocRoom_loopCore (k : Lists) : ∃ roomId, (loopCore.allocRoom k).1 = some roomId ∧ roomId ≠ sentinel := by
  refine ⟨_, rfl, ?_⟩
  split
  · decide
  · assumption

namespace Lists

/-- The connection is in the room. -/
def Member (k : Lists) (room conn : UInt64) : Prop := (room, conn) ∈ k.members

/-- The connection has an entity. -/
def Entity (k : Lists) (conn : UInt64) : Prop := conn ∈ k.entities

/-- The room id is given out. -/
def Used (k : Lists) (room : UInt64) : Prop := room < k.next

end Lists

theorem plainRooms_listCore : PlainRooms listCore Lists.Member where
  sub k room conn room' conn' := by
    simp only [listCore, Lists.Member, List.mem_cons, Prod.mk.injEq]
    exact or_comm
  unsub k room conn room' conn' := by
    simp only [listCore, Lists.Member, List.mem_filter, decide_eq_true_eq, ne_eq, Prod.mk.injEq]
  allocRoom k := by
    simp only [listCore]
    split <;> rfl
  entityMoveV _ _ _ _ _ _ _ _ _ := rfl
  entityRemove _ _ := rfl
  applyPacket _ _ _ := rfl

theorem plainRooms_loopCore : PlainRooms loopCore Lists.Member where
  sub := plainRooms_listCore.sub
  unsub := plainRooms_listCore.unsub
  allocRoom _ := rfl
  entityMoveV _ _ _ _ _ _ _ _ _ := rfl
  entityRemove _ _ := rfl
  applyPacket _ _ _ := rfl

theorem targetsMembers_listCore : TargetsMembers listCore Lists.Member := by
  intro k room conn
  refine ⟨_, rfl, fun target => ?_⟩
  simp [Lists.Member]

theorem targetsMembers_loopCore : TargetsMembers loopCore Lists.Member := targetsMembers_listCore

theorem plainEntities_listCore : PlainEntities listCore Lists.Entity where
  entityMoveV k conn x y z vx vy vz rtt conn' := by
    simp only [listCore, Lists.Entity, List.mem_cons]
    exact Or.symm
  entityRemove k conn conn' := by simp [listCore, Lists.Entity]
  sub _ _ _ := rfl
  unsub _ _ _ := rfl
  allocRoom k := by
    simp only [listCore]
    split <;> rfl
  applyPacket _ _ _ := rfl

theorem lt_add_one_of_le {room next : UInt64} (more : next ≠ sentinel) (le : room ≤ next) : room < next + 1 := by
  have bound : next.toNat ≠ sentinel.toNat := fun same => more (UInt64.toNat_inj.mp same)
  have last : sentinel.toNat = 2 ^ 64 - 1 := rfl
  have one : (1 : UInt64).toNat = 1 := rfl
  have size := next.toNat_lt
  rw [UInt64.le_iff_toNat_le] at le
  rw [UInt64.lt_iff_toNat_lt, UInt64.toNat_add]
  omega

theorem freshRooms_listCore : FreshRooms listCore Lists.Used where
  fresh k room alloc _ := by
    simp only [listCore, Lists.Used] at alloc ⊢
    split at alloc
    · cases alloc
    · rename_i more
      cases alloc
      rw [if_neg more]
      exact ⟨UInt64.lt_irrefl _, lt_add_one_of_le more (UInt64.le_refl _)⟩
  allocRoom k room used := by
    simp only [listCore, Lists.Used] at used ⊢
    split
    · exact used
    · exact lt_add_one_of_le ‹_› (UInt64.le_of_lt used)
  sub _ _ _ := rfl
  unsub _ _ _ := rfl
  entityMoveV _ _ _ _ _ _ _ _ _ := rfl
  entityRemove _ _ := rfl
  applyPacket _ _ _ := rfl

end WeftWarp.Fanout
