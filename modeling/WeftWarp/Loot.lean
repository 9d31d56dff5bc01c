import WeftWarp.S7

/-! # Loot

The tables of `loot.scm` and its random numbers. Seeds and states are never negative, and the masks keep them below
`2 ^ 45`, within the 64 bits of an integer of s7. Items are values of any kind that has the 0 of `pick`. -/

namespace WeftWarp
namespace Loot
open S7

/-! ### Random numbers -/

def u32 (x : Nat) : Nat := x &&& 0xFFFFFFFF

def xorshift32Next32 (s : Nat) : Nat :=
  let s := u32 (s ^^^ u32 (s <<< 13))
  let s := u32 (s ^^^ (s >>> 17))
  u32 (s ^^^ u32 (s <<< 5))

section
variable {N : Type} [Arithmetic N]

def rngRange (seed : Nat) (bound : N) : N :=
  if Arithmetic.eq bound (Arithmetic.ofInteger 0) then Arithmetic.ofInteger 0
  else Arithmetic.modulo (.ofNat (xorshift32Next32 seed)) bound

/-! ### Tables -/

/-- The entries of a table: an item and its weight. -/
abbrev Table (Item : Type) := List (Item × Int64)

variable {Item : Type}

def totalWeight (table : Table Item) : N :=
  table.foldl (fun acc entry => Arithmetic.add acc (Arithmetic.ofInteger entry.2)) (Arithmetic.ofInteger 0)

variable [OfNat Item 0]

def pick : Table Item → N → N → Item
  | [], _, _ => 0
  | (item, w) :: table, r, acc =>
    let newAcc := Arithmetic.add acc (Arithmetic.ofInteger w)
    if Arithmetic.lt r newAcc then item else pick table r newAcc

def lootRoll (N : Type) [Arithmetic N] (seed : Nat) (table : Table Item) : Item :=
  let tot : N := totalWeight table
  if Arithmetic.eq tot (Arithmetic.ofInteger 0) then 0 else pick table (rngRange seed tot) (Arithmetic.ofInteger 0)

end

end Loot
end WeftWarp
