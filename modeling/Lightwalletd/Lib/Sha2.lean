/-
SHA-256.

The message is padded to whole blocks of sixteen words, and each block is
compressed into the eight words of the state: sixty-four rounds over a schedule in
which every word past the sixteenth is made of four earlier ones.
-/
import Mathlib

namespace Sha2

def roundConstants : List UInt32 := [
  0x428a2f98, 0x71374491, 0xb5c0fbcf, 0xe9b5dba5, 0x3956c25b, 0x59f111f1, 0x923f82a4, 0xab1c5ed5,
  0xd807aa98, 0x12835b01, 0x243185be, 0x550c7dc3, 0x72be5d74, 0x80deb1fe, 0x9bdc06a7, 0xc19bf174,
  0xe49b69c1, 0xefbe4786, 0x0fc19dc6, 0x240ca1cc, 0x2de92c6f, 0x4a7484aa, 0x5cb0a9dc, 0x76f988da,
  0x983e5152, 0xa831c66d, 0xb00327c8, 0xbf597fc7, 0xc6e00bf3, 0xd5a79147, 0x06ca6351, 0x14292967,
  0x27b70a85, 0x2e1b2138, 0x4d2c6dfc, 0x53380d13, 0x650a7354, 0x766a0abb, 0x81c2c92e, 0x92722c85,
  0xa2bfe8a1, 0xa81a664b, 0xc24b8b70, 0xc76c51a3, 0xd192e819, 0xd6990624, 0xf40e3585, 0x106aa070,
  0x19a4c116, 0x1e376c08, 0x2748774c, 0x34b0bcb5, 0x391c0cb3, 0x4ed8aa4a, 0x5b9cca4f, 0x682e6ff3,
  0x748f82ee, 0x78a5636f, 0x84c87814, 0x8cc70208, 0x90befffa, 0xa4506ceb, 0xbef9a3f7, 0xc67178f2]

/-- The eight working words. -/
structure State where
  a : UInt32
  b : UInt32
  c : UInt32
  d : UInt32
  e : UInt32
  f : UInt32
  g : UInt32
  h : UInt32

def initial : State :=
  ⟨0x6a09e667, 0xbb67ae85, 0x3c6ef372, 0xa54ff53a, 0x510e527f, 0x9b05688c, 0x1f83d9ab, 0x5be0cd19⟩

def rotateRight (x : UInt32) (n : UInt32) : UInt32 := (x >>> n) ||| (x <<< (32 - n))

def round (s : State) (constant word : UInt32) : State :=
  let sum1 := rotateRight s.e 6 ^^^ rotateRight s.e 11 ^^^ rotateRight s.e 25
  let choice := (s.e &&& s.f) ^^^ (~~~s.e &&& s.g)
  let temp1 := s.h + sum1 + choice + constant + word
  let sum0 := rotateRight s.a 2 ^^^ rotateRight s.a 13 ^^^ rotateRight s.a 22
  let majority := (s.a &&& s.b) ^^^ (s.a &&& s.c) ^^^ (s.b &&& s.c)
  ⟨temp1 + (sum0 + majority), s.a, s.b, s.c, s.d + temp1, s.e, s.f, s.g⟩

/-- The word that follows sixteen words of the schedule. -/
def nextWord (window : List UInt32) : UInt32 :=
  let w := fun i => window.getD i 0
  let sigma0 := rotateRight (w 1) 7 ^^^ rotateRight (w 1) 18 ^^^ (w 1 >>> 3)
  let sigma1 := rotateRight (w 14) 17 ^^^ rotateRight (w 14) 19 ^^^ (w 14 >>> 10)
  w 0 + sigma0 + w 9 + sigma1

/-- The rounds, with the next sixteen words of the schedule at hand. -/
def rounds (s : State) (window : List UInt32) : List UInt32 → State
  | [] => s
  | constant :: constants =>
      rounds (round s constant (window.getD 0 0)) (window.tail ++ [nextWord window]) constants

/-- Compress one block of sixteen words. -/
def compress (s : State) (block : List UInt32) : State :=
  let r := rounds s block roundConstants
  ⟨s.a + r.a, s.b + r.b, s.c + r.c, s.d + r.d, s.e + r.e, s.f + r.f, s.g + r.g, s.h + r.h⟩

/-- The big-endian words of some bytes. -/
def words : List UInt8 → List UInt32
  | b0 :: b1 :: b2 :: b3 :: rest =>
      ((b0.toUInt32 <<< 24) ||| (b1.toUInt32 <<< 16) ||| (b2.toUInt32 <<< 8) ||| b3.toUInt32)
        :: words rest
  | _ => []

/-- The big-endian bytes of a word. -/
def wordBytes (x : UInt32) : List UInt8 :=
  [(x >>> 24).toUInt8, (x >>> 16).toUInt8, (x >>> 8).toUInt8, x.toUInt8]

/-- A one bit, zeros up to the last eight bytes of a block, and the length in bits. -/
def pad (message : List UInt8) : List UInt8 :=
  let bits := UInt64.ofNat (message.length * 8)
  message ++ [(0x80 : UInt8)] ++ List.replicate ((119 - message.length % 64) % 64) (0 : UInt8)
    ++ wordBytes (bits >>> 32).toUInt32 ++ wordBytes bits.toUInt32

/-- Compress the blocks of a padded message. -/
def blocks : Nat → State → List UInt32 → State
  | 0, s, _ => s
  | count + 1, s, input => blocks count (compress s (input.take 16)) (input.drop 16)

def digest (message : List UInt8) : List UInt8 :=
  let input := words (pad message)
  let s := blocks (input.length / 16) initial input
  wordBytes s.a ++ wordBytes s.b ++ wordBytes s.c ++ wordBytes s.d ++ wordBytes s.e
    ++ wordBytes s.f ++ wordBytes s.g ++ wordBytes s.h

theorem digest_length (message : List UInt8) : (digest message).length = 32 := rfl

example : digest [0x61, 0x62, 0x63] = [
    0xba, 0x78, 0x16, 0xbf, 0x8f, 0x01, 0xcf, 0xea, 0x41, 0x41, 0x40, 0xde, 0x5d, 0xae, 0x22, 0x23,
    0xb0, 0x03, 0x61, 0xa3, 0x96, 0x17, 0x7a, 0x9c, 0xb4, 0x10, 0xff, 0x61, 0xf2, 0x00,
      0x15, 0xad] := by
  decide +kernel

end Sha2
