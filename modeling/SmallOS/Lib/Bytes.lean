import Mathlib.Data.Nat.Bitwise

/-! Byte buffers: little-endian words, block copies and bit maps. A buffer is a function from
offsets, so a store is a pointwise change, and the lemmas say what a later read sees at the same and
at other offsets. -/

namespace SmallOS.Bytes

open Nat

variable {b c src : Buf} {i k len n o off v : Nat} {f : Nat → Nat}

@[ext] structure Buf where
  get : Nat → UInt8

instance : CoeFun Buf (fun _ => Nat → UInt8) := ⟨Buf.get⟩

def zeros : Buf := ⟨fun _ => 0⟩

def Buf.set (b : Buf) (i : Nat) (x : UInt8) : Buf := ⟨Function.update b.get i x⟩

@[simp] theorem Buf.set_same (b : Buf) (i : Nat) (x : UInt8) : b.set i x i = x :=
  Function.update_self ..

theorem Buf.set_of_ne {j : Nat} {x : UInt8} (h : j ≠ i) : b.set i x j = b j :=
  Function.update_of_ne h ..

def Buf.shift (b : Buf) (off : Nat) : Buf := ⟨fun i => b (off + i)⟩

def readU16 (b : Buf) (off : Nat) : Nat :=
  (b off).toNat + 256 * (b (off + 1)).toNat

def readU32 (b : Buf) (off : Nat) : Nat :=
  (b off).toNat + 256 * (b (off + 1)).toNat + 65536 * (b (off + 2)).toNat +
    16777216 * (b (off + 3)).toNat

def writeU16 (b : Buf) (off v : Nat) : Buf := ⟨fun i =>
  if i = off then UInt8.ofNat v
  else if i = off + 1 then UInt8.ofNat (v / 256)
  else b i⟩

def writeU32 (b : Buf) (off v : Nat) : Buf := ⟨fun i =>
  if i = off then UInt8.ofNat v
  else if i = off + 1 then UInt8.ofNat (v / 256)
  else if i = off + 2 then UInt8.ofNat (v / 65536)
  else if i = off + 3 then UInt8.ofNat (v / 16777216)
  else b i⟩

theorem readU16_congr (h : ∀ i, off ≤ i → i < off + 2 → b i = c i) :
    readU16 b off = readU16 c off := by
  simp only [readU16, h off (by omega) (by omega), h (off + 1) (by omega) (by omega)]

theorem readU32_congr (h : ∀ i, off ≤ i → i < off + 4 → b i = c i) :
    readU32 b off = readU32 c off := by
  simp only [readU32, h off (by omega) (by omega), h (off + 1) (by omega) (by omega),
    h (off + 2) (by omega) (by omega), h (off + 3) (by omega) (by omega)]

theorem readU16_lt (b : Buf) (off : Nat) : readU16 b off < 65536 := by
  have h0 := (b off).toNat_lt
  have h1 := (b (off + 1)).toNat_lt
  unfold readU16
  omega

theorem readU32_lt (b : Buf) (off : Nat) : readU32 b off < 4294967296 := by
  have h0 := (b off).toNat_lt
  have h1 := (b (off + 1)).toNat_lt
  have h2 := (b (off + 2)).toNat_lt
  have h3 := (b (off + 3)).toNat_lt
  unfold readU32
  omega

@[simp] theorem readU32_zeros (off : Nat) : readU32 zeros off = 0 := by
  simp [readU32, zeros]

@[simp] theorem readU16_zeros (off : Nat) : readU16 zeros off = 0 := by
  simp [readU16, zeros]

theorem writeU16_of_outside (h : i < off ∨ off + 2 ≤ i) : writeU16 b off v i = b i := by
  have h0 : i ≠ off := by omega
  have h1 : i ≠ off + 1 := by omega
  simp only [writeU16, h0, h1, if_false]

theorem writeU32_of_outside (h : i < off ∨ off + 4 ≤ i) : writeU32 b off v i = b i := by
  have h0 : i ≠ off := by omega
  have h1 : i ≠ off + 1 := by omega
  have h2 : i ≠ off + 2 := by omega
  have h3 : i ≠ off + 3 := by omega
  simp only [writeU32, h0, h1, h2, h3, if_false]

@[simp] theorem readU16_writeU16 (b : Buf) (off v : Nat) :
    readU16 (writeU16 b off v) off = v % 65536 := by
  have h1 : off + 1 ≠ off := by omega
  simp only [readU16, writeU16, h1, if_true, if_false, UInt8.toNat_ofNat']
  omega

@[simp] theorem readU32_writeU32 (b : Buf) (off v : Nat) :
    readU32 (writeU32 b off v) off = v % 4294967296 := by
  have h1 : off + 1 ≠ off := by omega
  have h2 : off + 2 ≠ off := by omega
  have h3 : off + 3 ≠ off := by omega
  have h4 : off + 2 ≠ off + 1 := by omega
  have h5 : off + 3 ≠ off + 1 := by omega
  have h6 : off + 3 ≠ off + 2 := by omega
  simp only [readU32, writeU32, h1, h2, h3, h4, h5, h6, if_true, if_false, UInt8.toNat_ofNat']
  omega

theorem readU16_writeU16_of_disjoint (h : o + 2 ≤ off ∨ off + 2 ≤ o) :
    readU16 (writeU16 b off v) o = readU16 b o :=
  readU16_congr fun i _ _ => writeU16_of_outside (by omega)

theorem readU16_writeU32_of_disjoint (h : o + 2 ≤ off ∨ off + 4 ≤ o) :
    readU16 (writeU32 b off v) o = readU16 b o :=
  readU16_congr fun i _ _ => writeU32_of_outside (by omega)

theorem readU32_writeU16_of_disjoint (h : o + 4 ≤ off ∨ off + 2 ≤ o) :
    readU32 (writeU16 b off v) o = readU32 b o :=
  readU32_congr fun i _ _ => writeU16_of_outside (by omega)

theorem readU32_writeU32_of_disjoint (h : o + 4 ≤ off ∨ off + 4 ≤ o) :
    readU32 (writeU32 b off v) o = readU32 b o :=
  readU32_congr fun i _ _ => writeU32_of_outside (by omega)

def writeU32s (b : Buf) (off : Nat) (f : Nat → Nat) : Nat → Buf
  | 0 => b
  | n + 1 => writeU32 (writeU32s b off f n) (off + 4 * n) (f n)

theorem writeU32s_of_outside (h : i < off ∨ off + 4 * n ≤ i) : writeU32s b off f n i = b i := by
  induction n with
  | zero => rfl
  | succ n ih =>
    rw [writeU32s, writeU32_of_outside (by omega)]
    exact ih (by omega)

theorem readU32_writeU32s (hi : i < n) :
    readU32 (writeU32s b off f n) (off + 4 * i) = f i % 4294967296 := by
  induction n with
  | zero => omega
  | succ n ih =>
    rw [writeU32s]
    by_cases h : i = n
    · rw [h, readU32_writeU32]
    · rw [readU32_writeU32_of_disjoint (by omega)]
      exact ih (by omega)

theorem readU32_writeU32s_of_disjoint
    (h : o + 4 ≤ off ∨ off + 4 * n ≤ o) : readU32 (writeU32s b off f n) o = readU32 b o :=
  readU32_congr fun i _ _ => writeU32s_of_outside (by omega)

theorem readU16_writeU32s_of_disjoint
    (h : o + 2 ≤ off ∨ off + 4 * n ≤ o) : readU16 (writeU32s b off f n) o = readU16 b o :=
  readU16_congr fun i _ _ => writeU32s_of_outside (by omega)

def fill (b : Buf) (off len : Nat) (x : UInt8) : Buf := ⟨fun i =>
  if off ≤ i ∧ i < off + len then x else b i⟩

def copy (b : Buf) (off len : Nat) (src : Buf) : Buf := ⟨fun i =>
  if off ≤ i ∧ i < off + len then src (i - off) else b i⟩

theorem copy_of_outside (h : i < off ∨ off + len ≤ i) : copy b off len src i = b i := by
  have h' : ¬(off ≤ i ∧ i < off + len) := by omega
  simp only [copy, h', if_false]

theorem copy_of_inside (h : off ≤ i) (h' : i < off + len) :
    copy b off len src i = src (i - off) := by
  simp only [copy, h, h', and_self, if_true]

def ofList (l : List UInt8) : Buf := ⟨fun i => l.getD i 0⟩

def bitTest (b : Buf) (i : Nat) : Bool := (b (i / 8)).toNat.testBit (i % 8)

def bitSet (b : Buf) (i : Nat) : Buf :=
  b.set (i / 8) (UInt8.ofNat ((b (i / 8)).toNat ||| 2 ^ (i % 8)))

def bitClear (b : Buf) (i : Nat) : Buf :=
  b.set (i / 8) (UInt8.ofNat ((b (i / 8)).toNat &&& (255 ^^^ 2 ^ (i % 8))))

theorem testBit_toNat_ofNat (hk : k < 8) : (UInt8.ofNat n).toNat.testBit k = n.testBit k := by
  rw [UInt8.toNat_ofNat', testBit_mod_two_pow]
  simp [hk]

theorem bitTest_bitSet (b : Buf) (i j : Nat) :
    bitTest (bitSet b i) j = (decide (j = i) || bitTest b j) := by
  unfold bitTest bitSet
  have hj : j % 8 < 8 := mod_lt _ (by decide)
  by_cases h : j / 8 = i / 8
  · rw [h, Buf.set_same, testBit_toNat_ofNat hj, testBit_or, testBit_two_pow]
    have key : (i % 8 = j % 8) ↔ (j = i) := by omega
    simp only [key, Bool.or_comm]
  · rw [Buf.set_of_ne h]
    have key : ¬(j = i) := by rintro rfl; exact h rfl
    simp [key]

theorem testBit_255 (hk : k < 8) : Nat.testBit 255 k = true := by
  have h : (255 : Nat) = 2 ^ 8 - 1 := rfl
  rw [h, testBit_two_pow_sub_one]
  simp [hk]

theorem bitTest_bitClear (b : Buf) (i j : Nat) :
    bitTest (bitClear b i) j = (!decide (j = i) && bitTest b j) := by
  unfold bitTest bitClear
  have hj : j % 8 < 8 := mod_lt _ (by decide)
  by_cases h : j / 8 = i / 8
  · rw [h, Buf.set_same, testBit_toNat_ofNat hj, testBit_and, testBit_xor,
      testBit_255 hj, testBit_two_pow]
    have key : (i % 8 = j % 8) ↔ (j = i) := by omega
    simp only [key, Bool.and_comm, Bool.true_bne]
  · rw [Buf.set_of_ne h]
    have key : ¬(j = i) := by rintro rfl; exact h rfl
    simp [key]

def bitSetRun (b : Buf) (i : Nat) : Nat → Buf
  | 0 => b
  | n + 1 => bitSet (bitSetRun b i n) (i + n)

theorem bitTest_bitSetRun (b : Buf) (i n j : Nat) :
    bitTest (bitSetRun b i n) j = (decide (i ≤ j ∧ j < i + n) || bitTest b j) := by
  induction n with
  | zero =>
    have h : ¬(i ≤ j ∧ j < i + 0) := by omega
    simp only [bitSetRun, h, decide_false, Bool.false_or]
  | succ n ih =>
    rw [bitSetRun, bitTest_bitSet, ih, ← Bool.or_assoc, ← Bool.decide_or]
    have key : (j = i + n ∨ i ≤ j ∧ j < i + n) ↔ (i ≤ j ∧ j < i + (n + 1)) := by omega
    simp only [key]

end SmallOS.Bytes
