import Mathlib.Data.UInt
import Mathlib.Tactic.IntervalCases

/-! SHA-256 as FIPS 180-4 defines it: the padded message is cut into blocks of 64 bytes, and
each block is mixed into eight words by 64 rounds over its schedule. -/

namespace SmallOS.Sha256

structure Words where
  (a b c d e f g h : UInt32)
  deriving DecidableEq

def primes : List Nat := [
  2, 3, 5, 7, 11, 13, 17, 19, 23, 29, 31, 37, 41, 43, 47, 53, 59, 61, 67, 71, 73, 79, 83, 89, 97, 101,
  103, 107, 109, 113, 127, 131, 137, 139, 149, 151, 157, 163, 167, 173, 179, 181, 191, 193, 197, 199,
  211, 223, 227, 229, 233, 239, 241, 251, 257, 263, 269, 271, 277, 281, 283, 293, 307, 311]

def rootFraction (n x : Nat) : UInt32 := UInt32.ofNat <|
  (List.range 36).foldr (fun i r => if (r + 2 ^ i) ^ n ≤ x * 2 ^ (32 * n) then r + 2 ^ i else r) 0

def k : List UInt32 := primes.map (rootFraction 3)

def initial : Words :=
  ⟨rootFraction 2 2, rootFraction 2 3, rootFraction 2 5, rootFraction 2 7, rootFraction 2 11,
    rootFraction 2 13, rootFraction 2 17, rootFraction 2 19⟩

def rotr (x : UInt32) (n : Nat) : UInt32 := ⟨x.toBitVec.rotateRight n⟩

def ch (x y z : UInt32) : UInt32 := (x &&& y) ^^^ (~~~x &&& z)

def maj (x y z : UInt32) : UInt32 := (x &&& y) ^^^ (x &&& z) ^^^ (y &&& z)

def upper0 (x : UInt32) : UInt32 := rotr x 2 ^^^ rotr x 13 ^^^ rotr x 22

def upper1 (x : UInt32) : UInt32 := rotr x 6 ^^^ rotr x 11 ^^^ rotr x 25

def lower0 (x : UInt32) : UInt32 := rotr x 7 ^^^ rotr x 18 ^^^ x >>> 3

def lower1 (x : UInt32) : UInt32 := rotr x 17 ^^^ rotr x 19 ^^^ x >>> 10

def word (block : List UInt8) (t : Nat) : UInt32 :=
  (block.getD (t * 4) 0).toUInt32 <<< 24 ||| (block.getD (t * 4 + 1) 0).toUInt32 <<< 16 |||
    (block.getD (t * 4 + 2) 0).toUInt32 <<< 8 ||| (block.getD (t * 4 + 3) 0).toUInt32

def schedule (block : List UInt8) (t : Nat) : UInt32 :=
  if t < 16 then word block t
  else lower1 (schedule block (t - 2)) + schedule block (t - 7) +
    lower0 (schedule block (t - 15)) + schedule block (t - 16)
  termination_by t

def Words.round (s : Words) (kt wt : UInt32) : Words :=
  let t1 := s.h + upper1 s.e + ch s.e s.f s.g + kt + wt
  let t2 := upper0 s.a + maj s.a s.b s.c
  ⟨t1 + t2, s.a, s.b, s.c, s.d + t1, s.e, s.f, s.g⟩

def Words.add (s r : Words) : Words :=
  ⟨s.a + r.a, s.b + r.b, s.c + r.c, s.d + r.d, s.e + r.e, s.f + r.f, s.g + r.g, s.h + r.h⟩

def compress (s : Words) (block : List UInt8) : Words :=
  s.add ((List.range 64).foldl (fun r t => r.round (k.getD t 0) (schedule block t)) s)

/-- A one bit, zeros up to eight bytes before the end of a block, and the length in bits. -/
def pad (message : List UInt8) : List UInt8 :=
  message ++ [128] ++ List.replicate ((119 - message.length % 64) % 64) 0 ++
    (List.range 8).map fun i => UInt8.ofNat (8 * message.length / 2 ^ (8 * (7 - i)))

def blocks (l : List UInt8) : List (List UInt8) :=
  if l = [] then [] else l.take 64 :: blocks (l.drop 64)
  termination_by l.length
  decreasing_by
    have := List.length_pos_of_ne_nil ‹_›
    rw [List.length_drop]
    omega

def Words.bytes (s : Words) : List UInt8 :=
  [s.a, s.b, s.c, s.d, s.e, s.f, s.g, s.h].flatMap fun x =>
    (List.range 4).map fun i => (x >>> UInt32.ofNat (24 - i * 8)).toUInt8

def digest (message : List UInt8) : List UInt8 :=
  ((blocks (pad message)).foldl compress initial).bytes

theorem blocks_append {block : List UInt8} (full : block.length = 64) (rest : List UInt8) :
    blocks (block ++ rest) = block :: blocks rest := by
  have some : block ++ rest ≠ [] := by
    rintro nil
    rw [(List.append_eq_nil_iff.mp nil).1] at full
    cases full
  rw [blocks, if_neg some, ← full, List.take_left, List.drop_left]

theorem blocks_self {block : List UInt8} (full : block.length = 64) : blocks block = [block] := by
  have := blocks_append full []
  rwa [List.append_nil, blocks.eq_def [], if_pos rfl] at this

theorem blocks_flatten {bs : List (List UInt8)} (full : ∀ b ∈ bs, b.length = 64)
    (rest : List UInt8) : blocks (bs.flatten ++ rest) = bs ++ blocks rest := by
  induction bs with
  | nil => rfl
  | cons b bs ih =>
    rw [List.forall_mem_cons] at full
    rw [List.flatten_cons, List.append_assoc, blocks_append full.1, ih full.2]
    rfl

end SmallOS.Sha256
