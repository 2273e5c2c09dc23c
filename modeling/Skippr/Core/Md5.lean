import Mathlib

/-!
# MD5

The digest of a list of bytes, on words as numbers below `2 ^ 32`, small enough
to be run by the kernel. `utf8` gives the bytes of a text.
-/
namespace Skippr

def utf8Char (c : Char) : List Nat :=
  let n := c.toNat
  if n < 0x80 then [n]
  else if n < 0x800 then [0xC0 + n / 64, 0x80 + n % 64]
  else if n < 0x10000 then [0xE0 + n / 4096, 0x80 + n / 64 % 64, 0x80 + n % 64]
  else [0xF0 + n / 262144, 0x80 + n / 4096 % 64, 0x80 + n / 64 % 64, 0x80 + n % 64]

def utf8 (t : List Char) : List Nat := t.flatMap utf8Char

namespace Md5

def word : Nat := 2 ^ 32

/-- `⌊2 ^ 32 * |sin (i + 1)|⌋` -/
def constants : List Nat :=
  [
    0xd76aa478, 0xe8c7b756, 0x242070db, 0xc1bdceee,
    0xf57c0faf, 0x4787c62a, 0xa8304613, 0xfd469501,
    0x698098d8, 0x8b44f7af, 0xffff5bb1, 0x895cd7be,
    0x6b901122, 0xfd987193, 0xa679438e, 0x49b40821,
    0xf61e2562, 0xc040b340, 0x265e5a51, 0xe9b6c7aa,
    0xd62f105d, 0x02441453, 0xd8a1e681, 0xe7d3fbc8,
    0x21e1cde6, 0xc33707d6, 0xf4d50d87, 0x455a14ed,
    0xa9e3e905, 0xfcefa3f8, 0x676f02d9, 0x8d2a4c8a,
    0xfffa3942, 0x8771f681, 0x6d9d6122, 0xfde5380c,
    0xa4beea44, 0x4bdecfa9, 0xf6bb4b60, 0xbebfbc70,
    0x289b7ec6, 0xeaa127fa, 0xd4ef3085, 0x04881d05,
    0xd9d4d039, 0xe6db99e5, 0x1fa27cf8, 0xc4ac5665,
    0xf4292244, 0x432aff97, 0xab9423a7, 0xfc93a039,
    0x655b59c3, 0x8f0ccc92, 0xffeff47d, 0x85845dd1,
    0x6fa87e4f, 0xfe2ce6e0, 0xa3014314, 0x4e0811a1,
    0xf7537e82, 0xbd3af235, 0x2ad7d2bb, 0xeb86d391]

def shifts : List Nat :=
  (List.replicate 4 [7, 12, 17, 22]).flatten ++ (List.replicate 4 [5, 9, 14, 20]).flatten ++
    (List.replicate 4 [4, 11, 16, 23]).flatten ++ (List.replicate 4 [6, 10, 15, 21]).flatten

def rotateLeft (x n : Nat) : Nat := (x <<< n) % word ||| x >>> (32 - n)

def complement (x : Nat) : Nat := word - 1 - x

structure State where
  a : Nat
  b : Nat
  c : Nat
  d : Nat
deriving DecidableEq, Repr

def State.init : State := ⟨0x67452301, 0xefcdab89, 0x98badcfe, 0x10325476⟩

/-- The mix of round `i` and the message word it takes. -/
def mix (s : State) (i : Nat) : Nat × Nat :=
  if i < 16 then (s.b &&& s.c ||| complement s.b &&& s.d, i)
  else if i < 32 then (s.d &&& s.b ||| complement s.d &&& s.c, (5 * i + 1) % 16)
  else if i < 48 then (s.b ^^^ s.c ^^^ s.d, (3 * i + 5) % 16)
  else (s.c ^^^ (s.b ||| complement s.d), 7 * i % 16)

def round (message : List Nat) (s : State) (i : Nat) : State :=
  let m := mix s i
  let sum := (m.1 + s.a + constants.getD i 0 + message.getD m.2 0) % word
  ⟨s.d, (s.b + rotateLeft sum (shifts.getD i 0)) % word, s.b, s.c⟩

def State.add (s t : State) : State :=
  ⟨(s.a + t.a) % word, (s.b + t.b) % word, (s.c + t.c) % word, (s.d + t.d) % word⟩

def littleEndian (n x : Nat) : List Nat := (List.range n).map fun i => x / 256 ^ i % 256

def toWord (bytes : List Nat) : Nat := bytes.foldr (fun byte acc => byte + 256 * acc) 0

def block (s : State) (bytes : List Nat) : State :=
  let message := (List.range 16).map fun i => toWord ((bytes.drop (4 * i)).take 4)
  s.add ((List.range 64).foldl (round message) s)

/-- A one bit, zeros up to 8 bytes before the end of a block, the length in bits. -/
def pad (bytes : List Nat) : List Nat :=
  bytes ++ 0x80 :: List.replicate ((119 - bytes.length % 64) % 64) 0 ++
    littleEndian 8 (8 * bytes.length)

end Md5

open Md5 in
def md5 (bytes : List Nat) : List Nat :=
  let padded := pad bytes
  let s := (List.range (padded.length / 64)).foldl
    (fun s i => block s ((padded.drop (64 * i)).take 64)) .init
  [s.a, s.b, s.c, s.d].flatMap (littleEndian 4)

example : md5 (utf8 "abc".toList) =
    [0x90, 0x01, 0x50, 0x98, 0x3c, 0xd2, 0x4f, 0xb0, 0xd6, 0x96, 0x3f, 0x7d, 0x28, 0xe1, 0x7f, 0x72] := by
  decide +kernel

end Skippr
