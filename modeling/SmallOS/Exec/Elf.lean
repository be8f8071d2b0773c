import SmallOS.Vm.Fault

/-! The ELF loader. It is handed a pointer to the image and no length, so the model records the
offsets it reads there and the user addresses it writes. An image is mapped lazily, by areas that
name its path, or, without a path, copied into new pages. -/

namespace SmallOS.Exec
open Bytes Prog Ranges Vm

def userPieBase : Nat := 0x01000000

def elfMagic : Nat := 0x464C457F
def etExec : Nat := 2
def etDyn : Nat := 3
def ptLoad : Nat := 1
def ptInterp : Nat := 3

def phdrSize : Nat := 32

/-- The file that was read into memory. `bytes` goes on past the end of the file. -/
structure Image where
  len : Nat
  bytes : Buf

/-- What a pointer `offset` bytes into the image sees; pointers are 32 bits wide. -/
def Image.pointer (img : Image) (offset : Nat) : Buf := ⟨fun i => img.bytes (wrap (offset + i))⟩

/-- The parts of `process_t` that an exec reads or writes. `argArena` and `envArena` tell
whether the string arenas exist. -/
structure Process where
  space : Space
  args : List Path
  argArena : Bool
  env : List Path
  envArena : Bool
  auxv : List (Nat × Nat)
  userEntry : Nat
  userStackEsp : Nat
  heapBase : Nat
  heapBrk : Nat
  mmapBase : Nat
  mmapNext : Nat
  fds : Nat → Option Nat
  name : Path

/-- A process under construction, with the offsets and lengths of the reads from the
image and the addresses and lengths of the writes to user memory, latest first. -/
structure Loader where
  process : Process
  reads : List (Nat × Nat)
  writes : List (Nat × Nat)

abbrev L := EStateM Unit Loader

def Loader.space (s : Loader) : Space := s.process.space

def Loader.setSpace (s : Loader) (space : Space) : Loader :=
  { s with process := { s.process with space := space } }

def onSpace {α : Type} (x : M α) : L α := fun s =>
  match x s.space with
  | .ok a space => .ok a (s.setSpace space)
  | .error e space => .error e (s.setSpace space)

def noteRead (offset len : Nat) : L Unit :=
  modify fun s => { s with reads := (offset, len) :: s.reads }

def half (img : Image) (offset : Nat) : L Nat := do
  noteRead offset 2
  pure (readU16 img.bytes offset)

def word (img : Image) (offset : Nat) : L Nat := do
  noteRead offset 4
  pure (readU32 img.bytes offset)

def elfValidHeader (img : Image) : L Bool := do
  if (← word img 0) ≠ elfMagic then pure false
  else if (← half img 18) ≠ 3 then pure false
  else if (← half img 42) ≠ phdrSize then pure false
  else if (← half img 44) = 0 then pure false
  else
    let type ← half img 16
    pure (decide (type = etExec ∨ type = etDyn))

def elfVaddrFrom (img : Image) (phoff bias offset : Nat) : (n i : Nat) → L Nat
  | 0, _ => pure (wrap (bias + offset))
  | n + 1, i => do
    if (← word img (phoff + phdrSize * i)) ≠ ptLoad then
      elfVaddrFrom img phoff bias offset n (i + 1)
    else
      let first ← word img (phoff + phdrSize * i + 4)
      let filesz ← word img (phoff + phdrSize * i + 16)
      if first ≤ offset ∧ offset < wrap (first + filesz) then
        let vaddr ← word img (phoff + phdrSize * i + 8)
        pure (wrap (bias + vaddr + (offset - first)))
      else elfVaddrFrom img phoff bias offset n (i + 1)

def elfVaddrForFileOffset (img : Image) (bias offset : Nat) : L Nat := do
  let phoff ← word img 28
  let phnum ← half img 44
  elfVaddrFrom img phoff bias offset phnum 0

def isSep (c : UInt8) : Bool := c == 47 || c == 92

def interpName (img : Image) (offset filesz : Nat) : Path :=
  (((List.range filesz).map fun i => img.bytes (offset + i)).dropWhile isSep).takeWhile (· != 0)

def interpFrom (img : Image) (phoff : Nat) : (n i : Nat) → L (Option Path)
  | 0, _ => pure none
  | n + 1, i => do
    if (← word img (phoff + phdrSize * i)) ≠ ptInterp then interpFrom img phoff n (i + 1)
    else
      let filesz ← word img (phoff + phdrSize * i + 16)
      if filesz = 0 ∨ fdNameMax ≤ filesz then pure none
      else
        let offset ← word img (phoff + phdrSize * i + 4)
        noteRead offset filesz
        pure (some (interpName img offset filesz))

def elfCopyInterpPath (img : Image) : L (Option Path) := do
  let phoff ← word img 28
  let phnum ← half img 44
  interpFrom img phoff phnum 0

def storePage (p : Page) (offset n : Nat) (src : Buf) : Page :=
  { p with bytes := copy p.bytes offset n src }

def storeChunk (addr n : Nat) (src : Buf) (p : Page) : L Unit :=
  modify fun s => { s.setSpace { s.space with
      pages := Function.update s.space.pages (pageFloor addr)
        (some (storePage p (addr % pageSize) n src)) } with
    writes := (addr, n) :: s.writes }

def userPage (fs : Files) (addr : Nat) : L Page := do
  if ((← get).space.pages (pageFloor addr)).isNone then
    onSpace (processVmFaultInPage fs addr true)
  match (← get).space.pages (pageFloor addr) with
  | none => throw ()
  | some p => pure p

/-- A read of the source of a copy, which is in the image when it has an offset there. -/
def noteSource (image : Option Nat) (copied chunk : Nat) : L Unit :=
  match image with
  | none => pure ()
  | some offset => noteRead (offset + copied) chunk

def copyChunks (fs : Files) (va : Nat) (src : Buf) (image : Option Nat) (len : Nat) :
    (rounds copied : Nat) → L Unit
  | 0, _ => pure ()
  | n + 1, copied =>
    if copied < len then do
      let cur := wrap (va + copied)
      let chunk := min (pageSize - cur % pageSize) (len - copied)
      let p ← userPage fs cur
      noteSource image copied chunk
      storeChunk cur chunk (src.shift copied) p
      copyChunks fs va src image len n (copied + chunk)
    else pure ()

def elfCopyToUser (fs : Files) (va : Nat) (src : Buf) (image : Option Nat) (len : Nat) : L Unit :=
  copyChunks fs va src image len len 0

def elfSegmentProt (flags : Nat) : Prot :=
  let prot := (if flags.testBit 2 then protRead else 0) |||
    (if flags.testBit 1 then protWrite else 0) ||| (if flags.testBit 0 then protExec else 0)
  if prot = 0 then protRead else prot

def segmentProts (type flags : Nat) : Prot × Prot :=
  let prot := elfSegmentProt flags
  let prot' := if type = etDyn then prot ||| protWrite else prot
  let maxProt := if type = etDyn then prot ||| protWrite ||| protRead else prot
  (prot', if prot'.writable then maxProt ||| protRead else maxProt)

def elfMapPages (start : Nat) (count : Nat) : M Unit :=
  steps (fun i _ => do
    let page := start + pageSize * i
    match (← get).pages page with
    | none =>
      allocate
      pagingMapPage page ⟨true, false, false, false, zeros⟩
    | some p => pagingMapPage page { p with write := true }) count 0 ()

structure Segment where
  vaddr : Nat
  memsz : Nat
  flags : Nat
  filesz : Nat
  offset : Nat
  deriving DecidableEq

def Segment.mapStart (g : Segment) : Nat := pageFloor g.vaddr

def Segment.mapEnd (g : Segment) : Nat := pageAlign (wrap (g.vaddr + g.memsz))

def Segment.area (g : Segment) (type : Nat) (path : Option Path) : Area where
  start := g.mapStart
  stop := g.mapEnd
  prot := (segmentProts type g.flags).1
  maxProt := (segmentProts type g.flags).2
  kind := .elf
  flags := 0
  fileStart := g.vaddr
  fileEnd := wrap (g.vaddr + g.filesz)
  fileOffset := g.offset
  fileSize := g.filesz
  path := path.getD []

def placeSegment (fs : Files) (img : Image) (path : Option Path) (type : Nat) (g : Segment) :
    L Unit := do
  onSpace (processVmAdd (g.area type path))
  match path with
  | some _ => pure ()
  | none =>
    onSpace (elfMapPages g.mapStart ((g.mapEnd - g.mapStart) / pageSize))
    elfCopyToUser fs g.vaddr (img.pointer g.offset) (some g.offset) g.filesz

def mapHeader (fs : Files) (img : Image) (path : Option Path) (type bias phoff i : Nat)
    (bounds : Nat × Nat) : L (Nat × Nat) := do
  let at_ := phoff + phdrSize * i
  if (← word img at_) ≠ ptLoad then pure bounds
  else
    let memsz ← word img (at_ + 20)
    if memsz = 0 then pure bounds
    else
      let vaddr ← word img (at_ + 8)
      let start := pageFloor (wrap (bias + vaddr))
      let stop := pageAlign (wrap (wrap (bias + vaddr) + memsz))
      if start < userCodeBase ∨ userStackTop ≤ stop then throw ()
      else
        let flags ← word img (at_ + 24)
        let filesz ← word img (at_ + 16)
        let offset ← word img (at_ + 4)
        placeSegment fs img path type ⟨wrap (bias + vaddr), memsz, flags, filesz, offset⟩
        pure (min start bounds.1, max stop bounds.2)

structure MapInfo where
  entry : Nat
  phdr : Nat
  phent : Nat
  phnum : Nat
  loadBase : Nat
  low : Nat
  high : Nat

def elfMapImageIntoProcess (fs : Files) (img : Image) (path : Option Path) (dynBase : Nat) :
    L MapInfo := do
  if !(← elfValidHeader img) then throw ()
  else
    let type ← half img 16
    let bias := if type = etDyn then dynBase else 0
    let phoff ← word img 28
    let phnum ← half img 44
    let bounds ← steps (mapHeader fs img path type bias phoff) phnum 0 (0xFFFFFFFF, 0)
    if bounds.1 = 0xFFFFFFFF then throw ()
    else
      let entry ← word img 24
      let phdr ← elfVaddrForFileOffset img bias phoff
      pure ⟨wrap (entry + bias), phdr, phdrSize, phnum, bias, bounds.1, bounds.2⟩

end SmallOS.Exec
