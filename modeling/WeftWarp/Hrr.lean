import Mathlib.Data.UInt

/-! # The hash of the phase vectors

`_sha256` of `tw_hrr.hpp`. A buffer is the list of its bytes; its size is far from the end of `size_t`. -/

namespace WeftWarp
namespace TwHRR
namespace Sha256

def K : List UInt32 :=
  [0x428a2f98, 0x71374491, 0xb5c0fbcf, 0xe9b5dba5, 0x3956c25b, 0x59f111f1, 0x923f82a4, 0xab1c5ed5,
   0xd807aa98, 0x12835b01, 0x243185be, 0x550c7dc3, 0x72be5d74, 0x80deb1fe, 0x9bdc06a7, 0xc19bf174,
   0xe49b69c1, 0xefbe4786, 0x0fc19dc6, 0x240ca1cc, 0x2de92c6f, 0x4a7484aa, 0x5cb0a9dc, 0x76f988da,
   0x983e5152, 0xa831c66d, 0xb00327c8, 0xbf597fc7, 0xc6e00bf3, 0xd5a79147, 0x06ca6351, 0x14292967,
   0x27b70a85, 0x2e1b2138, 0x4d2c6dfc, 0x53380d13, 0x650a7354, 0x766a0abb, 0x81c2c92e, 0x92722c85,
   0xa2bfe8a1, 0xa81a664b, 0xc24b8b70, 0xc76c51a3, 0xd192e819, 0xd6990624, 0xf40e3585, 0x106aa070,
   0x19a4c116, 0x1e376c08, 0x2748774c, 0x34b0bcb5, 0x391c0cb3, 0x4ed8aa4a, 0x5b9cca4f, 0x682e6ff3,
   0x748f82ee, 0x78a5636f, 0x84c87814, 0x8cc70208, 0x90befffa, 0xa4506ceb, 0xbef9a3f7, 0xc67178f2]

def rotr (x n : UInt32) : UInt32 := (x >>> n) ||| (x <<< (32 - n))

def ch (e f g : UInt32) : UInt32 := (e &&& f) ^^^ (~~~e &&& g)

def maj (a b c : UInt32) : UInt32 := (a &&& b) ^^^ (a &&& c) ^^^ (b &&& c)

def s0 (x : UInt32) : UInt32 := rotr x 2 ^^^ rotr x 13 ^^^ rotr x 22

def s1 (x : UInt32) : UInt32 := rotr x 6 ^^^ rotr x 11 ^^^ rotr x 25

def g0 (x : UInt32) : UInt32 := rotr x 7 ^^^ rotr x 18 ^^^ (x >>> 3)

def g1 (x : UInt32) : UInt32 := rotr x 17 ^^^ rotr x 19 ^^^ (x >>> 10)

/-- `padded` -/
def paddedSize (len : Nat) : Nat := (len + 9 + 63) / 64 * 64

/-- `msg` -/
def paddedMessage (data : List UInt8) : List UInt8 :=
  let len := data.length
  let bitLen := UInt64.ofNat len * 8
  let padded := paddedSize len
  -- The zeros, with the data copied over them.
  let msg := data ++ (List.replicate padded 0).drop len
  let msg := msg.set len 0x80
  (List.range 8).foldl (fun msg i => msg.set (padded - 8 + i) (bitLen >>> UInt64.ofNat (56 - 8 * i)).toUInt8) msg

/-- Four bytes from the position on. -/
def loadWord (msg : List UInt8) (p : Nat) : UInt32 :=
  ((msg.getD p 0).toUInt32 <<< 24) ||| ((msg.getD (p + 1) 0).toUInt32 <<< 16) |||
    ((msg.getD (p + 2) 0).toUInt32 <<< 8) ||| (msg.getD (p + 3) 0).toUInt32

/-- `w` -/
def words (msg : List UInt8) (offset : Nat) : List UInt32 :=
  (List.range' 16 48).foldl
    (fun w i => w ++ [g1 (w.getD (i - 2) 0) + w.getD (i - 7) 0 + g0 (w.getD (i - 15) 0) + w.getD (i - 16) 0])
    ((List.range 16).map fun i => loadWord msg (offset + 4 * i))

/-- The working variables, or the eight entries of `h`. -/
structure Registers where
  a : UInt32
  b : UInt32
  c : UInt32
  d : UInt32
  e : UInt32
  f : UInt32
  g : UInt32
  hh : UInt32

def start : Registers :=
  ⟨0x6a09e667, 0xbb67ae85, 0x3c6ef372, 0xa54ff53a, 0x510e527f, 0x9b05688c, 0x1f83d9ab, 0x5be0cd19⟩

def rotate (w : List UInt32) (r : Registers) (i : Nat) : Registers :=
  let t1 := r.hh + s1 r.e + ch r.e r.f r.g + K.getD i 0 + w.getD i 0
  let t2 := s0 r.a + maj r.a r.b r.c
  { hh := r.g, g := r.f, f := r.e, e := r.d + t1, d := r.c, c := r.b, b := r.a, a := t1 + t2 }

/-- One round of the loop over the offsets. -/
def addBlock (msg : List UInt8) (h : Registers) (offset : Nat) : Registers :=
  let r := (List.range 64).foldl (rotate (words msg offset)) h
  { a := h.a + r.a, b := h.b + r.b, c := h.c + r.c, d := h.d + r.d,
    e := h.e + r.e, f := h.f + r.f, g := h.g + r.g, hh := h.hh + r.hh }

/-- The four bytes of a word in the output. -/
def storeWord (x : UInt32) : List UInt8 := [(x >>> 24).toUInt8, (x >>> 16).toUInt8, (x >>> 8).toUInt8, x.toUInt8]

def hash (data : List UInt8) : List UInt8 :=
  let msg := paddedMessage data
  let offsets := (List.range (paddedSize data.length / 64)).map (64 * ·)
  let h := offsets.foldl (addBlock msg) start
  [h.a, h.b, h.c, h.d, h.e, h.f, h.g, h.hh].flatMap storeWord

end Sha256
end TwHRR
end WeftWarp
