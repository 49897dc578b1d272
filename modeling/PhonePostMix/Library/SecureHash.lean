import Mathlib.Data.List.Basic
import PhonePostMix.Library.ByteOrder

/-! SHA-1 as FIPS 180-4 has it, for messages of whole bytes. -/

namespace SecureHash
open ByteOrder

def rotl (n x : UInt32) : UInt32 := x <<< n ||| x >>> (32 - n)

def ch (x y z : UInt32) : UInt32 := (x &&& y) ^^^ (~~~x &&& z)

def parity (x y z : UInt32) : UInt32 := x ^^^ y ^^^ z

def maj (x y z : UInt32) : UInt32 := (x &&& y) ^^^ (x &&& z) ^^^ (y &&& z)

def f (t : ℕ) : UInt32 → UInt32 → UInt32 → UInt32 :=
  if t < 20 then ch else if t < 40 then parity else if t < 60 then maj else parity

def k (t : ℕ) : UInt32 :=
  if t < 20 then 0x5a827999
  else if t < 40 then 0x6ed9eba1
  else if t < 60 then 0x8f1bbcdc
  else 0xca62c1d6

structure Words where
  a : UInt32
  b : UInt32
  c : UInt32
  d : UInt32
  e : UInt32
  deriving DecidableEq, Repr

def initial : Words := ⟨0x67452301, 0xefcdab89, 0x98badcfe, 0x10325476, 0xc3d2e1f0⟩

def word (block : List UInt8) (t : ℕ) : UInt32 :=
  UInt32.ofNat (bigEndian ((block.drop (t * 4)).take 4))

def schedule (block : List UInt8) (t : ℕ) : UInt32 :=
  if t < 16 then word block t
  else
    rotl 1 (schedule block (t - 3) ^^^ schedule block (t - 8) ^^^ schedule block (t - 14) ^^^
      schedule block (t - 16))
termination_by t

theorem schedule_of_lt {t : ℕ} (ht : t < 16) (block : List UInt8) :
    schedule block t = word block t := by
  rw [schedule, if_pos ht]

theorem schedule_of_ge {t : ℕ} (ht : 16 ≤ t) (block : List UInt8) :
    schedule block t = rotl 1 (schedule block (t - 3) ^^^ schedule block (t - 8) ^^^
      schedule block (t - 14) ^^^ schedule block (t - 16)) := by
  rw [schedule, if_neg (Nat.not_lt.mpr ht)]

def round (w : ℕ → UInt32) (v : Words) (t : ℕ) : Words where
  a := rotl 5 v.a + f t v.b v.c v.d + v.e + k t + w t
  b := v.a
  c := rotl 30 v.b
  d := v.c
  e := v.d

def compress (h : Words) (block : List UInt8) : Words :=
  let v := (List.range 80).foldl (round (schedule block)) h
  ⟨h.a + v.a, h.b + v.b, h.c + v.c, h.d + v.d, h.e + v.e⟩

def zeros (length : ℕ) : ℕ :=
  -- how many zero bytes follow the `0x80`: as few as make the last block whole
  (119 - length % 64) % 64

def pad (message : List UInt8) : List UInt8 :=
  message ++ 0x80 :: List.replicate (zeros message.length) 0 ++
    bigEndianBytes 8 (message.length * 8)

def blocks (padded : List UInt8) : List (List UInt8) :=
  (List.range (padded.length / 64)).map fun i => (padded.drop (i * 64)).take 64

def Words.bytes (h : Words) : List UInt8 :=
  [h.a, h.b, h.c, h.d, h.e].flatMap fun x => bigEndianBytes 4 x.toNat

def sha1 (message : List UInt8) : List UInt8 :=
  ((blocks (pad message)).foldl compress initial).bytes

theorem zeros_spec (length : ℕ) :
    zeros length < 64 ∧ (length + 1 + zeros length) % 64 = 56 := by
  unfold zeros
  omega

theorem length_pad (message : List UInt8) :
    (pad message).length = (message.length + 72) / 64 * 64 := by
  obtain ⟨hfew, hplace⟩ := zeros_spec message.length
  simp only [pad, List.length_append, List.length_cons, List.length_replicate,
    length_bigEndianBytes]
  omega

end SecureHash
