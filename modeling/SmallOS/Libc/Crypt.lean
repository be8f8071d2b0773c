import SmallOS.Lib.Sha256

/-! The password hash of the C library: SHA-256 over a buffer of 64 bytes, and the text that
`crypt` makes of the digest. A C string is the list of the bytes before its terminator. -/

namespace SmallOS.Libc
open Sha256 List

/-- The buffer holds the bytes below `data_len`. -/
structure Sha256Ctx where
  state : Words
  bitLen : UInt64
  data : List UInt8

def sK : List UInt32 := [
  0x428a2f98, 0x71374491, 0xb5c0fbcf, 0xe9b5dba5, 0x3956c25b, 0x59f111f1, 0x923f82a4, 0xab1c5ed5,
  0xd807aa98, 0x12835b01, 0x243185be, 0x550c7dc3, 0x72be5d74, 0x80deb1fe, 0x9bdc06a7, 0xc19bf174,
  0xe49b69c1, 0xefbe4786, 0x0fc19dc6, 0x240ca1cc, 0x2de92c6f, 0x4a7484aa, 0x5cb0a9dc, 0x76f988da,
  0x983e5152, 0xa831c66d, 0xb00327c8, 0xbf597fc7, 0xc6e00bf3, 0xd5a79147, 0x06ca6351, 0x14292967,
  0x27b70a85, 0x2e1b2138, 0x4d2c6dfc, 0x53380d13, 0x650a7354, 0x766a0abb, 0x81c2c92e, 0x92722c85,
  0xa2bfe8a1, 0xa81a664b, 0xc24b8b70, 0xc76c51a3, 0xd192e819, 0xd6990624, 0xf40e3585, 0x106aa070,
  0x19a4c116, 0x1e376c08, 0x2748774c, 0x34b0bcb5, 0x391c0cb3, 0x4ed8aa4a, 0x5b9cca4f, 0x682e6ff3,
  0x748f82ee, 0x78a5636f, 0x84c87814, 0x8cc70208, 0x90befffa, 0xa4506ceb, 0xbef9a3f7, 0xc67178f2]

def rotr (value bits : UInt32) : UInt32 := value >>> bits ||| value <<< (32 - bits)

def sha256Expand (data : List UInt8) (n : Nat) : List UInt32 :=
  (List.range' 16 n).foldl (fun m i =>
    let x := m.getD (i - 15) 0
    let y := m.getD (i - 2) 0
    let s0 := rotr x 7 ^^^ rotr x 18 ^^^ x >>> 3
    let s1 := rotr y 17 ^^^ rotr y 19 ^^^ y >>> 10
    m ++ [m.getD (i - 16) 0 + s0 + m.getD (i - 7) 0 + s1]) ((List.range 16).map (word data))

def sha256Round (m : List UInt32) (r : Words) (i : Nat) : Words :=
  let s1 := rotr r.e 6 ^^^ rotr r.e 11 ^^^ rotr r.e 25
  let ch := (r.e &&& r.f) ^^^ (~~~r.e &&& r.g)
  let temp1 := r.h + s1 + ch + sK.getD i 0 + m.getD i 0
  let s0 := rotr r.a 2 ^^^ rotr r.a 13 ^^^ rotr r.a 22
  let maj := (r.a &&& r.b) ^^^ (r.a &&& r.c) ^^^ (r.b &&& r.c)
  let temp2 := s0 + maj
  ⟨temp1 + temp2, r.a, r.b, r.c, r.d + temp1, r.e, r.f, r.g⟩

def sha256Transform (state : Words) (data : List UInt8) : Words :=
  state.add ((List.range 64).foldl (sha256Round (sha256Expand data 48)) state)

def sha256Init : Sha256Ctx :=
  ⟨⟨0x6a09e667, 0xbb67ae85, 0x3c6ef372, 0xa54ff53a, 0x510e527f, 0x9b05688c, 0x1f83d9ab, 0x5be0cd19⟩,
    0, []⟩

def sha256Update (ctx : Sha256Ctx) (data : List UInt8) : Sha256Ctx :=
  data.foldl (fun ctx byte =>
    let data := ctx.data ++ [byte]
    if data.length = 64 then ⟨sha256Transform ctx.state data, ctx.bitLen + 512, []⟩
    else { ctx with data := data }) ctx

def sha256Final (ctx : Sha256Ctx) : List UInt8 :=
  let data := ctx.data ++ [128]
  let bitLen := ctx.bitLen + UInt64.ofNat ctx.data.length * 8
  let length := (List.range 8).map fun i => (bitLen >>> UInt64.ofNat (8 * (7 - i))).toUInt8
  if 56 < data.length then
    let state := sha256Transform ctx.state (data ++ replicate (64 - data.length) 0)
    (sha256Transform state (replicate 56 0 ++ length)).bytes
  else (sha256Transform ctx.state (data ++ replicate (56 - data.length) 0 ++ length)).bytes

def validSaltChar (c : UInt8) : Bool :=
  (97 ≤ c && c ≤ 122) || (65 ≤ c && c ≤ 90) || (48 ≤ c && c ≤ 57) || c == 46 || c == 95 || c == 45

def cryptPrefix : List UInt8 :=
  [36, 115, 109, 97, 108, 108, 111, 115, 45, 115, 104, 97, 50, 53, 54, 36]

def copySalt (outSize : Nat) : (salt out : List UInt8) → Option (List UInt8)
  | [], _ => none
  | c :: salt, out =>
    if c = 36 then if out = [] then none else some out
    else if outSize ≤ out.length + 1 ∨ validSaltChar c = false then none
    else copySalt outSize salt (out ++ [c])

def extractSalt (salt : List UInt8) : Option (List UInt8) :=
  if salt.take 16 = cryptPrefix then copySalt 32 (salt.drop 16) [] else none

def hex : List UInt8 := [48, 49, 50, 51, 52, 53, 54, 55, 56, 57, 97, 98, 99, 100, 101, 102]

/-- The salt and the key are read before the static buffer is written, so either may be an
earlier result. -/
def crypt (key salt : Option (List UInt8)) : List UInt8 :=
  match key, salt.bind extractSalt with
  | some key, some salt =>
    let ctx := sha256Update (sha256Update (sha256Update sha256Init salt) [58]) key
    let text := (sha256Final ctx).flatMap fun (b : UInt8) =>
      [hex.getD (b >>> 4).toNat 0, hex.getD (b &&& 15).toNat 0]
    cryptPrefix ++ salt ++ 36 :: text
  | _, _ => [42]

theorem sK_eq : sK = k := by decide +kernel

theorem sha256Init_state : sha256Init.state = initial := by decide +kernel

theorem getD_schedule {data : List UInt8} {n t : Nat} (ht : t < n) :
    ((List.range n).map (schedule data)).getD t 0 = schedule data t := by
  simp [getD_eq_getElem?_getD, ht]

theorem sha256Expand_eq (data : List UInt8) (n : Nat) :
    sha256Expand data n = (List.range (16 + n)).map (schedule data) := by
  induction n with
  | zero =>
    refine map_congr_left fun t ht => ?_
    rw [schedule, if_pos (mem_range.mp ht)]
  | succ n ih =>
    unfold sha256Expand at ih ⊢
    rw [range'_concat, foldl_append, ih, ← Nat.add_assoc, range_succ, map_append]
    simp only [foldl_cons, foldl_nil, Nat.one_mul]
    rw [getD_schedule (by omega), getD_schedule (by omega), getD_schedule (by omega),
      getD_schedule (by omega), map_singleton, schedule.eq_def data (16 + n), if_neg (by omega)]
    congr 2
    have s0 (x : UInt32) : rotr x 7 ^^^ rotr x 18 ^^^ x >>> 3 = lower0 x := rfl
    have s1 (y : UInt32) : rotr y 17 ^^^ rotr y 19 ^^^ y >>> 10 = lower1 y := rfl
    rw [s0, s1]
    ac_rfl

theorem sha256Transform_eq (state : Words) (data : List UInt8) :
    sha256Transform state data = compress state data := by
  refine congrArg state.add (foldl_ext _ _ _ fun r t ht => ?_)
  rw [sha256Expand_eq, ← getD_schedule (mem_range.mp ht), ← sK_eq]
  rfl

structure Absorbed (message : List UInt8) (ctx : Sha256Ctx) (bs : List (List UInt8)) : Prop where
  full : ∀ b ∈ bs, b.length = 64
  split : message = bs.flatten ++ ctx.data
  short : ctx.data.length < 64
  state : ctx.state = bs.foldl compress initial
  bits : ctx.bitLen = UInt64.ofNat (512 * bs.length)

theorem Absorbed.update {message bs ctx} (h : Absorbed message ctx bs) (data : List UInt8) :
    ∃ bs, Absorbed (message ++ data) (sha256Update ctx data) bs := by
  induction data generalizing message ctx bs with
  | nil => exact ⟨bs, by rwa [append_nil]⟩
  | cons byte data ih =>
    rw [append_cons, sha256Update, foldl_cons]
    by_cases last : (ctx.data ++ [byte]).length = 64
    · rw [if_pos last]
      have next : Absorbed (message ++ [byte])
          ⟨sha256Transform ctx.state (ctx.data ++ [byte]), ctx.bitLen + 512, []⟩
          (bs ++ [ctx.data ++ [byte]]) := by
        refine ⟨?_, ?_, Nat.zero_lt_succ _, ?_, ?_⟩
        · exact forall_mem_append.mpr ⟨h.full, forall_mem_singleton.mpr last⟩
        · rw [h.split, flatten_append, flatten_singleton, append_nil, append_assoc]
        · rw [foldl_append, ← h.state, sha256Transform_eq]
          rfl
        · rw [h.bits, length_append, Nat.mul_add, UInt64.ofNat_add]
          rfl
      exact ih next
    · rw [if_neg last]
      refine ih { h with split := ?_, short := ?_ }
      · rw [h.split, append_assoc]
      · have := h.short
        rw [length_append, length_singleton] at last ⊢
        omega

theorem lengthBytes_eq (n : Nat) : ((List.range 8).map fun i =>
      (UInt64.ofNat n >>> UInt64.ofNat (8 * (7 - i))).toUInt8) =
    (List.range 8).map fun i => UInt8.ofNat (n / 2 ^ (8 * (7 - i))) := by
  refine map_congr_left fun i hi => UInt8.toNat_inj.mp ?_
  have := mem_range.mp hi
  interval_cases i <;> simp [Nat.shiftRight_eq_div_pow] <;> omega

theorem Absorbed.final {message bs ctx} (h : Absorbed message ctx bs) :
    sha256Final ctx = digest message := by
  have short := h.short
  have size : message.length = 64 * bs.length + ctx.data.length := by
    rw [h.split, length_append, length_flatten, map_congr_left h.full, map_const',
      sum_replicate_nat, Nat.mul_comm]
  have bits : ctx.bitLen + UInt64.ofNat ctx.data.length * 8 = UInt64.ofNat (8 * message.length) := by
    rw [h.bits, size, Nat.mul_add, ← Nat.mul_assoc, UInt64.ofNat_add,
      Nat.mul_comm 8 ctx.data.length, UInt64.ofNat_mul ctx.data.length]
    rfl
  unfold sha256Final digest pad
  simp only [bits, lengthBytes_eq, sha256Transform_eq]
  generalize hlast : (List.range 8).map (fun i => UInt8.ofNat (8 * message.length / _)) = last
  have eight : last.length = 8 := by rw [← hlast, length_map, length_range]
  generalize hdata : ctx.data ++ [128] = data
  have one : data.length = ctx.data.length + 1 := by rw [← hdata, length_append, length_singleton]
  rw [size, Nat.mul_add_mod, Nat.mod_eq_of_lt short, h.split, append_assoc bs.flatten, hdata,
    append_assoc bs.flatten, append_assoc bs.flatten, blocks_flatten h.full, foldl_append, ← h.state]
  split_ifs with long
  · rw [show (119 - ctx.data.length) % 64 = 64 - data.length + 56 by omega, replicate_add,
      ← append_assoc, append_assoc _ _ last, blocks_append, blocks_self]
    · rfl
    · rw [length_append, length_replicate, eight]
    · rw [length_append, length_replicate]
      omega
  · rw [show (119 - ctx.data.length) % 64 = 56 - data.length by omega, blocks_self]
    · rfl
    · rw [length_append, length_append, length_replicate, eight]
      omega

theorem sha256_pieces (pieces : List (List UInt8)) :
    sha256Final (pieces.foldl sha256Update sha256Init) = digest pieces.flatten := by
  have start : Absorbed [] sha256Init [] := ⟨nofun, rfl, Nat.zero_lt_succ _, sha256Init_state, rfl⟩
  obtain ⟨bs, h⟩ := start.update pieces.flatten
  have joined : pieces.foldl sha256Update sha256Init = sha256Update sha256Init pieces.flatten :=
    foldl_flatten.symm
  rw [joined, h.final, nil_append]

theorem copySalt_eq_some {l out salt : List UInt8} (h : copySalt 32 l out = some salt) :
    ∃ new, (∃ rest, l = new ++ 36 :: rest) ∧ salt = out ++ new ∧
      ∀ rest, copySalt 32 (new ++ 36 :: rest) out = some salt := by
  induction l generalizing out with
  | nil => cases h
  | cons c l ih =>
    unfold copySalt at h
    split_ifs at h with stop empty bad
    · obtain rfl := Option.some.inj h
      refine ⟨[], ⟨l, by rw [stop]; rfl⟩, (append_nil out).symm, fun rest => ?_⟩
      rw [nil_append, copySalt, if_pos rfl, if_neg empty]
    · obtain ⟨new, ⟨rest, rfl⟩, rfl, again⟩ := ih h
      refine ⟨c :: new, ⟨rest, rfl⟩, (append_cons ..).symm, fun rest => ?_⟩
      rw [cons_append, copySalt, if_neg stop, if_neg bad]
      exact again rest

def hexText (bytes : List UInt8) : List UInt8 :=
  bytes.flatMap fun b => [b.toNat / 16, b.toNat % 16].map fun n =>
    UInt8.ofNat (Nat.digitChar n).toNat

theorem hex_eq {n : Nat} (h : n < 16) : hex.getD n 0 = UInt8.ofNat (Nat.digitChar n).toNat := by
  interval_cases n <;> rfl

theorem crypt_eq {s salt : List UInt8} (h : extractSalt s = some salt) (key : List UInt8) :
    crypt (some key) (some s) =
      cryptPrefix ++ salt ++ 36 :: hexText (digest (salt ++ 58 :: key)) := by
  have hash := sha256_pieces [salt, [58], key]
  simp only [foldl_cons, foldl_nil, flatten_cons, flatten_nil, append_nil, singleton_append] at hash
  simp only [crypt, Option.bind_some, h, hash]
  congr 3
  funext b
  have high : (b >>> 4).toNat = b.toNat / 16 := by simp [Nat.shiftRight_eq_div_pow]
  have low : (b &&& 15).toNat = b.toNat % 16 := by
    rw [UInt8.toNat_and]
    exact Nat.and_two_pow_sub_one_eq_mod b.toNat 4
  have lt := b.toNat_lt
  rw [high, low, hex_eq (by omega), hex_eq (by omega)]
  rfl

/-- Every way of handing a message over gives its SHA-256 digest, and `crypt` gives the salt and
the digest as text, which it takes back as a salt with the same result. -/
theorem password_hash_correct : (∀ pieces : List (List UInt8),
      sha256Final (pieces.foldl sha256Update sha256Init) = digest pieces.flatten) ∧
    ∀ key s salt : List UInt8, extractSalt s = some salt →
      (∃ rest, s = cryptPrefix ++ salt ++ 36 :: rest) ∧ crypt (some key) (some s) =
        cryptPrefix ++ salt ++ 36 :: hexText (digest (salt ++ 58 :: key)) ∧
      crypt (some key) (some (crypt (some key) (some s))) = crypt (some key) (some s) := by
  refine ⟨sha256_pieces, fun key s salt h => ?_⟩
  rw [extractSalt] at h
  split_ifs at h with start
  obtain ⟨_, ⟨rest, split⟩, rfl, again⟩ := copySalt_eq_some h
  have again (rest : List UInt8) : extractSalt (cryptPrefix ++ salt ++ 36 :: rest) = some salt := by
    rw [append_assoc]
    exact again rest
  have whole : s = cryptPrefix ++ salt ++ 36 :: rest := by
    rw [append_assoc, ← split, ← start, take_append_drop]
  refine ⟨⟨rest, whole⟩, ?_, ?_⟩
  · rw [whole, crypt_eq (again _)]
  · rw [whole, crypt_eq (again _), crypt_eq (again _)]

def rootHash : List UInt8 := [
  101, 99, 100, 56, 55, 57, 101, 53, 97, 49, 54, 55, 52, 52, 49, 53, 98, 48, 48, 52, 51, 52, 102,
  50, 52, 99, 102, 48, 101, 48, 56, 55, 101, 97, 52, 50, 52, 49, 97, 53, 97, 51, 55, 99, 98, 54,
  102, 48, 97, 48, 55, 56, 98, 100, 51, 48, 100, 50, 98, 99, 54, 100, 102, 48]

theorem password_hash_correct_root :
    crypt (some [114, 111, 111, 116]) (some (cryptPrefix ++ [97, 36])) =
        cryptPrefix ++ [97, 36] ++ rootHash ∧
      cryptPrefix ++ [97, 36] ++ rootHash =
        cryptPrefix ++ [97] ++ 36 :: hexText (digest ([97] ++ 58 :: [114, 111, 111, 116])) := by
  have text : crypt (some [114, 111, 111, 116]) (some (cryptPrefix ++ [97, 36])) =
      cryptPrefix ++ [97, 36] ++ rootHash := by decide +kernel
  exact ⟨text, text.symm.trans (password_hash_correct.2 _ _ [97] (by decide)).2.1⟩

example : (sha256Final (sha256Update sha256Init [97, 98, 99])).take 4 = [0xba, 0x78, 0x16, 0xbf] := by
  decide +kernel

end SmallOS.Libc
