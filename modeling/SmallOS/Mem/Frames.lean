import SmallOS.Lib.Bytes

/-! The physical memory manager. A bitmap and an array of reference counts describe the frames from
2 MiB on; a counter has the number of free frames and a hint says where to look for one. -/

namespace SmallOS.Mem
open Bytes

def pmmBase : Nat := 0x200000
def pmmLimit : Nat := 0x10000000
def pmmFallbackSize : Nat := 0x1E00000
def pmmFrameSize : Nat := 4096
def pmmNumFrames : Nat := (pmmLimit - pmmBase) / pmmFrameSize

structure State where
  bitmap : Buf
  refcount : Nat → Nat
  managedFrames : Nat
  maxPhys : Nat
  freeCount : Nat
  totalCount : Nat
  nextFree : Nat
  ready : Bool

def frameIsUsed (p : State) (idx : Nat) : Bool := bitTest p.bitmap idx

def addrToIdx (addr : Nat) : Nat := (addr - pmmBase) / pmmFrameSize

def idxToAddr (idx : Nat) : Nat := pmmBase + idx * pmmFrameSize

def setRefcount (p : State) (idx n : Nat) : State :=
  { p with refcount := Function.update p.refcount idx n }

def pmmMarkIdxUsed (p : State) (idx : Nat) : State :=
  let p := if frameIsUsed p idx then p
    else { p with bitmap := bitSet p.bitmap idx, freeCount := p.freeCount - 1 }
  if p.refcount idx = 0 then setRefcount p idx 1 else p

def pmmMarkIdxFree (p : State) (idx : Nat) : State :=
  let p := if frameIsUsed p idx then
      { p with
        bitmap := bitClear p.bitmap idx
        freeCount := p.freeCount + 1
        nextFree := if idx < p.nextFree then idx else p.nextFree }
    else p
  setRefcount p idx 0

def roundDownFrame (addr : Nat) : Nat := addr / 4096 * 4096

def roundUpFrame (addr : Nat) : Nat := (addr + 4095) % 4294967296 / 4096 * 4096

def markFrames (mark : State → Nat → State) (p : State) (start stop : Nat) : State :=
  (List.range ((stop - start + 4095) / 4096)).foldl
    (fun p k => mark p (addrToIdx (start + k * 4096))) p

def pmmMarkRangeFree (p : State) (start stop : Nat) : State :=
  if stop ≤ pmmBase ∨ p.maxPhys ≤ start then p
  else
    let start := roundUpFrame (max start pmmBase)
    let stop := roundDownFrame (min stop p.maxPhys)
    if stop ≤ start then p else markFrames pmmMarkIdxFree p start stop

def pmmMarkRangeUsed (p : State) (start stop : Nat) : State :=
  if stop ≤ pmmBase ∨ p.maxPhys ≤ start then p
  else
    let start := roundDownFrame (max start pmmBase)
    let stop := roundUpFrame (min stop p.maxPhys)
    if stop ≤ start then p else markFrames pmmMarkIdxUsed p start stop

structure E820Entry where
  base : UInt64
  length : UInt64
  type : UInt32

/-- The fields of `boot_info_t` that are read here, and where the kernel heap ends. -/
structure BootInfo where
  magic : UInt32
  version : UInt32
  size : UInt32
  framebufferPhys : UInt32
  framebufferWidth : UInt32
  framebufferHeight : UInt32
  framebufferPitch : UInt32
  framebufferBpp : UInt32
  framebufferValid : UInt32
  e820Count : UInt32
  e820Valid : UInt32
  e820 : Nat → E820Entry
  ramdiskPhys : UInt32
  ramdiskSize : UInt32
  ramdiskValid : UInt32
  heapTop : UInt32

def bootInfoBytes : Nat := 832

def bootInfoHeaderValid (b : BootInfo) : Bool :=
  b.magic == 0x534D4F53 && b.version == 3 && decide (bootInfoBytes ≤ b.size.toNat)

def BootInfo.entries (b : BootInfo) : List E820Entry := (List.range b.e820Count.toNat).map b.e820

def e820EntrySane (ent : E820Entry) : Bool :=
  ent.length != 0 && !decide (ent.base + ent.length < ent.base)

def bootInfoE820Valid (b : BootInfo) : Bool :=
  bootInfoHeaderValid b && decide (b.e820Count ≤ 32) && b.e820Valid != 0 && b.e820Count != 0 &&
    b.entries.all e820EntrySane

def bootInfoFramebufferValid (b : BootInfo) : Bool :=
  bootInfoHeaderValid b && b.framebufferValid != 0 && b.framebufferPhys != 0 &&
    b.framebufferWidth != 0 && b.framebufferHeight != 0 && b.framebufferPitch != 0 &&
    b.framebufferBpp != 0

def bootInfoRamdiskValid (b : BootInfo) : Bool :=
  bootInfoHeaderValid b && b.ramdiskValid != 0 && b.ramdiskPhys != 0 && b.ramdiskSize != 0

def raiseMaxPhys (maxPhys : Nat) (ent : E820Entry) : Nat :=
  let end64 := (ent.base + ent.length).toNat
  if ent.type ≠ 1 ∨ ent.length = 0 then maxPhys
  else if end64 ≤ pmmBase then maxPhys
  else if pmmLimit ≤ ent.base.toNat then maxPhys
  else max maxPhys (min end64 pmmLimit)

def pmmDetectMaxPhys (b : BootInfo) : Nat :=
  let found := b.entries.foldl raiseMaxPhys pmmBase
  let maxPhys := if bootInfoE820Valid b ∧ pmmBase < found then found else pmmBase + pmmFallbackSize
  let maxPhys := roundDownFrame (min maxPhys pmmLimit)
  if maxPhys ≤ pmmBase then pmmBase + pmmFrameSize else maxPhys

def pmmMetadataInit (b : BootInfo) : State :=
  let maxPhys := pmmDetectMaxPhys b
  let frames := (maxPhys - pmmBase) / pmmFrameSize
  { bitmap := ⟨fun _ => 0xFF⟩
    refcount := fun _ => 1
    managedFrames := if pmmNumFrames < frames then pmmNumFrames else frames
    maxPhys := if pmmNumFrames < frames then pmmBase + pmmNumFrames * pmmFrameSize else maxPhys
    freeCount := 0
    totalCount := 0
    nextFree := 0
    ready := false }

def freeE820Entry (p : State) (ent : E820Entry) : State :=
  let end64 := (ent.base + ent.length).toNat
  if ent.type ≠ 1 ∨ ent.length = 0 then p
  else if end64 ≤ pmmBase ∨ p.maxPhys ≤ ent.base.toNat then p
  else pmmMarkRangeFree p (max ent.base.toNat pmmBase) (min end64 p.maxPhys)

def pmmFreeE820UsableRanges (p : State) (b : BootInfo) : State := b.entries.foldl freeE820Entry p

def pmmFreeFixedRange (p : State) : State :=
  pmmMarkRangeFree p pmmBase (pmmBase + pmmFallbackSize)

def kernelBootStackTop : Nat := 0x3FF000

def bootRanges (b : BootInfo) : List (Nat × Nat) :=
  [(0, 0x1000), (0x7C00, 0x7E00), (0x80000, 0x82000), (0x90000, 0x90000 + bootInfoBytes),
    (0x91000, 0x91000 + 0x1000), (kernelBootStackTop - pmmFrameSize, kernelBootStackTop),
    (0x100000, b.heapTop.toNat)] ++
  (if bootInfoFramebufferValid b then
    [(b.framebufferPhys.toNat,
      (b.framebufferPhys + b.framebufferPitch * b.framebufferHeight).toNat)] else []) ++
  (if bootInfoRamdiskValid b then
    [(b.ramdiskPhys.toNat, (b.ramdiskPhys + b.ramdiskSize).toNat)] else [])

def pmmReserveBootRanges (p : State) (b : BootInfo) : State :=
  (bootRanges b).foldl (fun p r => pmmMarkRangeUsed p r.1 r.2) p

def pmmInit (b : BootInfo) : State :=
  let p := pmmMetadataInit b
  let p := if bootInfoE820Valid b then pmmFreeE820UsableRanges p b else pmmFreeFixedRange p
  let p := pmmReserveBootRanges p b
  { p with ready := true, totalCount := p.freeCount }

def pmmReserveRange (p : State) (start stop : Nat) : State :=
  if p.ready then pmmMarkRangeUsed p start stop else p

def nextFreeFrame (p : State) : (fuel i : Nat) → Option Nat
  | 0, _ => none
  | fuel + 1, i =>
    let idx := (p.nextFree + i) % p.managedFrames
    if frameIsUsed p idx then nextFreeFrame p fuel (i + 1) else some idx

def pmmAllocFrame (p : State) : Nat × State :=
  if p.freeCount = 0 then (0, p)
  else match nextFreeFrame p p.managedFrames 0 with
    | none => (0, p)
    | some idx => (idxToAddr idx, setRefcount { p with
        bitmap := bitSet p.bitmap idx
        freeCount := p.freeCount - 1
        nextFree := (idx + 1) % p.managedFrames } idx 1)

def firstUsed (p : State) (start count : Nat) : Option Nat :=
  (List.range count).find? fun off => frameIsUsed p (start + off)

def findRun (p : State) (count : Nat) : (fuel start : Nat) → Option Nat
  | 0, _ => none
  | fuel + 1, start =>
    if start + count ≤ p.managedFrames then
      match firstUsed p start count with
      | some off => findRun p count fuel (start + off + 1)
      | none => some start
    else none

def takeRun (p : State) (start count : Nat) : State :=
  { p with
    bitmap := bitSetRun p.bitmap start count
    refcount := fun i => if start ≤ i ∧ i < start + count then 1 else p.refcount i
    freeCount := p.freeCount - count
    nextFree := (start + count) % p.managedFrames }

def pmmAllocContiguousFrames (p : State) (count : Nat) : Nat × State :=
  if count = 0 ∨ p.freeCount < count ∨ p.managedFrames < count then (0, p)
  else match findRun p count (p.managedFrames + 1) 0 with
    | none => (0, p)
    | some start => (idxToAddr start, takeRun p start count)

def pmmRetainFrame (p : State) (addr : Nat) : Bool × State :=
  if addr < pmmBase ∨ p.maxPhys ≤ addr then (false, p)
  else
    let idx := addrToIdx addr
    if !frameIsUsed p idx then (false, p)
    else if p.refcount idx = 0xFFFF then (false, p)
    else (true, setRefcount p idx (p.refcount idx + 1))

def pmmReleaseFrame (p : State) (addr : Nat) : State :=
  if addr < pmmBase ∨ p.maxPhys ≤ addr then p
  else
    let idx := addrToIdx addr
    if !frameIsUsed p idx ∨ p.refcount idx = 0 then p
    else if p.refcount idx = 1 then
      { setRefcount p idx 0 with
        bitmap := bitClear p.bitmap idx
        freeCount := p.freeCount + 1
        nextFree := if idx < p.nextFree then idx else p.nextFree }
    else setRefcount p idx (p.refcount idx - 1)

def pmmFreeContiguousFrames (p : State) (addr count : Nat) : State :=
  (List.range count).foldl (fun p off => pmmReleaseFrame p ((addr + off * 4096) % 4294967296)) p

inductive Call
  | alloc
  | allocContiguous (count : Nat)
  | retain (addr : Nat)
  | release (addr : Nat)
  | freeContiguous (addr count : Nat)
  | reserve (start stop : Nat)

def Call.run (p : State) : Call → State
  | .alloc => (pmmAllocFrame p).2
  | .allocContiguous count => (pmmAllocContiguousFrames p count).2
  | .retain addr => (pmmRetainFrame p addr).2
  | .release addr => pmmReleaseFrame p addr
  | .freeContiguous addr count => pmmFreeContiguousFrames p addr count
  | .reserve start stop => pmmReserveRange p start stop

end SmallOS.Mem
