import Mathlib.Data.List.GetD
import Mathlib.Tactic.Common

/-! Reading a packet of known length. A read past the end or a negative length is a fault, and a
parser is in bounds when it does not fault. Inside the packet a read is the plain field. -/

namespace SmallOS.Packet

open List

variable {a b i n off : Nat}

inductive Fault
  | outOfBounds | negative
deriving DecidableEq, Repr

def byte (f : List UInt8) (i : Nat) : Except Fault UInt8 :=
  match f[i]? with
  | some x => .ok x
  | none => .error .outOfBounds

def readU16 (f : List UInt8) (off : Nat) : Except Fault Nat := do
  let a ← byte f off
  let b ← byte f (off + 1)
  pure (a.toNat * 256 + b.toNat)

def readU32 (f : List UInt8) (off : Nat) : Except Fault Nat := do
  let a ← readU16 f off
  let b ← readU16 f (off + 2)
  pure (a * 65536 + b)

def bytes (f : List UInt8) (off n : Nat) : Except Fault (List UInt8) :=
  (List.range n).mapM fun i => byte f (off + i)

def sub (a b : Nat) : Except Fault Nat :=
  if b ≤ a then .ok (a - b) else .error .negative

def byteAt (f : List UInt8) (i : Nat) : UInt8 := f.getD i 0

def u16At (f : List UInt8) (off : Nat) : Nat :=
  (byteAt f off).toNat * 256 + (byteAt f (off + 1)).toNat

def u32At (f : List UInt8) (off : Nat) : Nat :=
  u16At f off * 65536 + u16At f (off + 2)

def slice (f : List UInt8) (off n : Nat) : List UInt8 :=
  (List.range n).map fun i => byteAt f (off + i)

variable {f : List UInt8} {α β : Type}

@[simp] theorem ok_bind (a : α) (k : α → Except Fault β) : (Except.ok a >>= k) = k a := rfl

@[simp] theorem error_bind (e : Fault) (k : α → Except Fault β) :
    ((Except.error e : Except Fault α) >>= k) = .error e := rfl

theorem byte_ok (h : i < f.length) : byte f i = .ok (byteAt f i) := by
  simp [byte, byteAt, getD_eq_getElem?_getD, getElem?_eq_getElem h]

theorem byte_error (h : f.length ≤ i) : byte f i = .error .outOfBounds := by
  simp [byte, getElem?_eq_none h]

theorem readU16_ok (h : off + 2 ≤ f.length) : readU16 f off = .ok (u16At f off) := by
  rw [readU16, byte_ok (by omega), ok_bind, byte_ok (by omega), ok_bind]
  rfl

theorem readU32_ok (h : off + 4 ≤ f.length) : readU32 f off = .ok (u32At f off) := by
  rw [readU32, readU16_ok (by omega), ok_bind, readU16_ok (by omega), ok_bind]
  rfl

theorem mapM_ok {ι : Type} {g : ι → Except Fault α} {v : ι → α} {l : List ι}
    (h : ∀ i ∈ l, g i = .ok (v i)) : l.mapM g = .ok (l.map v) := by
  induction l with
  | nil => rfl
  | cons i l ih =>
    rw [mapM_cons, h i mem_cons_self, ok_bind, ih fun j hj => h j (mem_cons_of_mem i hj)]
    rfl

theorem bytes_ok (h : off + n ≤ f.length) : bytes f off n = .ok (slice f off n) :=
  mapM_ok fun i hi => byte_ok (by have := mem_range.mp hi; omega)

theorem sub_ok (h : b ≤ a) : sub a b = .ok (a - b) := if_pos h

theorem sub_error (h : a < b) : sub a b = .error .negative := if_neg (by omega)

def InBounds (x : Except Fault α) : Prop := ∃ a, x = .ok a

theorem InBounds.ok (a : α) : InBounds (.ok a) := ⟨a, rfl⟩

theorem InBounds.pure (a : α) : InBounds (pure a) := ⟨a, rfl⟩

theorem InBounds.ite {c : Prop} [Decidable c] {x y : Except Fault α} (yes : c → InBounds x)
    (no : ¬c → InBounds y) : InBounds (if c then x else y) := by
  split_ifs with h
  · exact yes h
  · exact no h

theorem InBounds.unless {c : Prop} [Decidable c] {a : α} {y : Except Fault α}
    (no : ¬c → InBounds y) : InBounds (if c then Pure.pure a else y) :=
  .ite (fun _ => .pure a) no

theorem InBounds.bind {x : Except Fault α} {k : α → Except Fault β} (first : InBounds x)
    (rest : ∀ a, x = .ok a → InBounds (k a)) : InBounds (x >>= k) := by
  obtain ⟨a, rfl⟩ := first
  exact rest a rfl

section Rules

variable {k : UInt8 → Except Fault β} {w : Nat → Except Fault β} {l : List UInt8 → Except Fault β}

theorem InBounds.byte (h : i < f.length) (rest : InBounds (k (byteAt f i))) :
    InBounds (byte f i >>= k) := by
  rwa [byte_ok h]

theorem InBounds.u16 (h : off + 2 ≤ f.length) (rest : InBounds (w (u16At f off))) :
    InBounds (readU16 f off >>= w) := by
  rwa [readU16_ok h]

theorem InBounds.u32 (h : off + 4 ≤ f.length) (rest : InBounds (w (u32At f off))) :
    InBounds (readU32 f off >>= w) := by
  rwa [readU32_ok h]

theorem InBounds.bytes (h : off + n ≤ f.length)
    (rest : InBounds (l (slice f off n))) : InBounds (bytes f off n >>= l) := by
  rwa [bytes_ok h]

theorem InBounds.sub (h : b ≤ a) (rest : InBounds (w (a - b))) : InBounds (sub a b >>= w) := by
  rwa [sub_ok h]

end Rules

theorem not_inBounds_error (e : Fault) : ¬InBounds (Except.error e : Except Fault α) := by
  rintro ⟨a, h⟩
  cases h

theorem not_inBounds_of_isNone {x : Except Fault α} (h : x.toOption.isNone = true) :
    ¬InBounds x := by
  rintro ⟨a, rfl⟩
  cases h

theorem inBounds_bind_pure {x : Except Fault α} {g : α → β} :
    InBounds (x >>= fun a => pure (g a)) ↔ InBounds x := by
  cases x with
  | ok a => exact ⟨fun _ => .ok a, fun _ => .pure _⟩
  | error e => exact iff_of_false (not_inBounds_error e) (not_inBounds_error e)

end SmallOS.Packet
