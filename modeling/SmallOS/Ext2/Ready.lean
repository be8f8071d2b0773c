import SmallOS.Ext2.Volume

/-! Volumes in working order: no block reports a device error, each cached bitmap is on the device
unless it is marked dirty, which happens only inside a deferral, and the clock fits its field. On
such a volume the operations of `Volume` are total. -/

namespace SmallOS.Ext2
open Bytes Prog

variable {data : Buf} {b c count first : Nat} {S : Nat → Prop} {v v' v1 v2 : Vol}

structure Ready (v : Vol) : Prop where
  read : ∀ b, b < 8192 → v.readFails b = false
  write : ∀ b, b < 8192 → v.writeFails b = false
  blockSync : v.bitmapsLoaded = true → v.blockBitmapDirty = false → v.disk 2 = v.blockBitmap
  inodeSync : v.bitmapsLoaded = true → v.inodeBitmapDirty = false → v.disk 3 = v.inodeBitmap
  blockClean : v.deferDepth = 0 → v.blockBitmapDirty = false
  inodeClean : v.deferDepth = 0 → v.inodeBitmapDirty = false
  blockLoaded : v.blockBitmapDirty = true → v.bitmapsLoaded = true
  inodeLoaded : v.inodeBitmapDirty = true → v.bitmapsLoaded = true
  clock : v.now < 4294967296

def blockBits (v : Vol) : Buf := if v.bitmapsLoaded then v.blockBitmap else v.disk 2

def inodeBits (v : Vol) : Buf := if v.bitmapsLoaded then v.inodeBitmap else v.disk 3

def usedBlock (v : Vol) (b : Nat) : Bool := bitTest (blockBits v) b

def usedInode (v : Vol) (ino : Nat) : Bool := bitTest (inodeBits v) (ino - 1)

structure SameEnv (v v' : Vol) : Prop where
  readFails : v'.readFails = v.readFails
  writeFails : v'.writeFails = v.writeFails
  ramdisk : v'.ramdisk = v.ramdisk
  readOnly : v'.readOnly = v.readOnly
  initialised : v'.initialised = v.initialised
  deferDepth : v'.deferDepth = v.deferDepth
  now : v'.now = v.now

theorem SameEnv.refl (v : Vol) : SameEnv v v := ⟨rfl, rfl, rfl, rfl, rfl, rfl, rfl⟩

theorem SameEnv.trans (h : SameEnv v v1) (k : SameEnv v1 v2) : SameEnv v v2 :=
  ⟨k.readFails.trans h.readFails, k.writeFails.trans h.writeFails, k.ramdisk.trans h.ramdisk,
    k.readOnly.trans h.readOnly, k.initialised.trans h.initialised,
    k.deferDepth.trans h.deferDepth, k.now.trans h.now⟩

/-- From block 4 on, only the blocks in `touched` changed. -/
structure Effect (v v' : Vol) (touched : Nat → Prop) : Prop where
  ready : Ready v'
  env : SameEnv v v'
  disk : ∀ c, 4 ≤ c → ¬touched c → v'.disk c = v.disk c

theorem Effect.refl (h : Ready v) (S : Nat → Prop) : Effect v v S :=
  ⟨h, SameEnv.refl v, fun _ _ _ => rfl⟩

theorem Effect.mono {T : Nat → Prop} (h : Effect v v' S) (le : ∀ c, S c → T c) : Effect v v' T :=
  ⟨h.ready, h.env, fun c hc hT => h.disk c hc fun hS => hT (le c hS)⟩

theorem Effect.trans (h : Effect v v1 S) (k : Effect v1 v2 S) : Effect v v2 S :=
  ⟨k.ready, h.env.trans k.env, fun c hc hS => (k.disk c hc hS).trans (h.disk c hc hS)⟩

structure SameBits (v v' : Vol) : Prop where
  blocks : blockBits v' = blockBits v
  inodes : inodeBits v' = inodeBits v

theorem SameBits.refl (v : Vol) : SameBits v v := ⟨rfl, rfl⟩

theorem SameBits.trans (h : SameBits v v1) (k : SameBits v1 v2) : SameBits v v2 :=
  ⟨k.blocks.trans h.blocks, k.inodes.trans h.inodes⟩

theorem SameBits.usedBlock (h : SameBits v v') (b : Nat) : usedBlock v' b = usedBlock v b := by
  simp only [Ext2.usedBlock, h.blocks]

theorem SameBits.blockBitmap (h : SameBits v v') (loaded : v'.bitmapsLoaded = true) :
    v'.blockBitmap = blockBits v := by
  rw [← h.blocks, blockBits, loaded, if_pos rfl]

theorem SameBits.inodeBitmap (h : SameBits v v') (loaded : v'.bitmapsLoaded = true) :
    v'.inodeBitmap = inodeBits v := by
  rw [← h.inodes, inodeBits, loaded, if_pos rfl]

theorem readBlock_of_ready (hv : Ready v) (hb : b < 8192) : readBlock v b = some (v.disk b) := by
  simp [readBlock, hv.read b hb]

theorem writeBlock_run (hv : Ready v) (hb : b < 8192) (data : Buf) :
    writeBlock b data v = .ok () (setBlock v b data) := by
  change (if v.writeFails b = true then (throw .device : M Unit) else set (setBlock v b data)) v = _
  rw [hv.write b hb]
  rfl

theorem setBlock_same (v : Vol) (b : Nat) (data : Buf) : (setBlock v b data).disk b = data :=
  Function.update_self ..

theorem setBlock_of_ne (h : c ≠ b) : (setBlock v b data).disk c = v.disk c :=
  Function.update_of_ne h ..

theorem setBlock_effect (hv : Ready v) (hb : 4 ≤ b) (data : Buf) :
    Effect v (setBlock v b data) (· = b) where
  ready :=
    { hv with
      blockSync := fun hl hd => (setBlock_of_ne (by omega)).trans (hv.blockSync hl hd)
      inodeSync := fun hl hd => (setBlock_of_ne (by omega)).trans (hv.inodeSync hl hd) }
  env := ⟨rfl, rfl, rfl, rfl, rfl, rfl, rfl⟩
  disk := fun _ _ hc => setBlock_of_ne hc

theorem setBlock_bits (hb : 4 ≤ b) (data : Buf) : SameBits v (setBlock v b data) := by
  have h2 : (setBlock v b data).disk 2 = v.disk 2 := setBlock_of_ne (by omega)
  have h3 : (setBlock v b data).disk 3 = v.disk 3 := setBlock_of_ne (by omega)
  constructor
  · simp only [blockBits, h2]; rfl
  · simp only [inodeBits, h3]; rfl

theorem setBlocks_inside {i : Nat} (hi : i < count) :
    (setBlocks v first count data).disk (first + i) = data.shift (4096 * i) := by
  have h : first ≤ first + i ∧ first + i < first + count := by omega
  simp only [setBlocks, h, and_self, if_true, Nat.add_sub_cancel_left]

theorem setBlocks_outside (hc : ¬(first ≤ c ∧ c < first + count)) :
    (setBlocks v first count data).disk c = v.disk c := by
  simp only [setBlocks, hc, if_false]

theorem setBlocks_effect (hv : Ready v) (hf : 4 ≤ first) (count : Nat) (data : Buf) :
    Effect v (setBlocks v first count data) (fun c => first ≤ c ∧ c < first + count) where
  ready :=
    { hv with
      blockSync := fun hl hd => (setBlocks_outside (by omega)).trans (hv.blockSync hl hd)
      inodeSync := fun hl hd => (setBlocks_outside (by omega)).trans (hv.inodeSync hl hd) }
  env := ⟨rfl, rfl, rfl, rfl, rfl, rfl, rfl⟩
  disk := fun _ _ hc => setBlocks_outside hc

theorem setBlocks_bits (hf : 4 ≤ first) (count : Nat) (data : Buf) :
    SameBits v (setBlocks v first count data) := by
  have h2 : (setBlocks v first count data).disk 2 = v.disk 2 := setBlocks_outside (by omega)
  have h3 : (setBlocks v first count data).disk 3 = v.disk 3 := setBlocks_outside (by omega)
  constructor
  · simp only [blockBits, h2]; rfl
  · simp only [inodeBits, h3]; rfl

theorem writeBlocks_run (hv : Ready v) (h0 : 0 < count)
    (h31 : count ≤ 31) (hb : first + count ≤ 8192) (data : Buf) :
    writeBlocks first count data v = .ok () (setBlocks v first count data) := by
  have hcount : count ≠ 0 := by omega
  have hlen : ¬(255 < count * 8) := by omega
  have hok : (List.range count).any (fun i => v.writeFails (first + i)) = false := by
    rw [List.any_eq_false]
    intro i hi
    have := List.mem_range.mp hi
    simp [hv.write (first + i) (by omega)]
  change (if count = 0 then (pure () : M Unit)
    else if (!v.ramdisk && decide (255 < count * 8)) = true then throw .device
    else if (List.range count).any (fun i => v.writeFails (first + i)) = true then throw .device
    else set (setBlocks v first count data)) v = _
  rw [if_neg hcount, hok]
  simp only [hlen, decide_false, Bool.and_false, Bool.false_eq_true, if_false]
  rfl

def loadBitmaps (v : Vol) : Vol :=
  if v.bitmapsLoaded then v
  else { v with blockBitmap := v.disk 2, inodeBitmap := v.disk 3, bitmapsLoaded := true }

theorem readBitmaps_run (hv : Ready v) : readBitmaps v = .ok () (loadBitmaps v) := by
  have h2 := readBlock_of_ready hv (b := 2) (by decide)
  have h3 := readBlock_of_ready hv (b := 3) (by decide)
  cases hl : v.bitmapsLoaded with
  | true => simp [readBitmaps, loadBitmaps, hl, run_get, run_bind, run_pure]
  | false => simp [readBitmaps, loadBitmaps, hl, run_get, run_bind, query, h2, h3, run_set]

theorem loadBitmaps_loaded (v : Vol) : (loadBitmaps v).bitmapsLoaded = true := by
  unfold loadBitmaps
  split_ifs with h
  · exact h
  · rfl

theorem loadBitmaps_effect (hv : Ready v) : Effect v (loadBitmaps v) (fun _ => False) := by
  unfold loadBitmaps
  split_ifs with h
  · exact Effect.refl hv _
  · exact ⟨{ hv with
      blockSync := fun _ _ => rfl
      inodeSync := fun _ _ => rfl
      blockLoaded := fun _ => rfl
      inodeLoaded := fun _ => rfl }, ⟨rfl, rfl, rfl, rfl, rfl, rfl, rfl⟩, fun _ _ _ => rfl⟩

theorem loadBitmaps_bits (v : Vol) : SameBits v (loadBitmaps v) := by
  unfold loadBitmaps
  split_ifs with h
  · exact SameBits.refl v
  · constructor
    · simp [blockBits, h]
    · simp [inodeBits, h]

def putBlockBits (v : Vol) (bits : Buf) : Vol :=
  if v.deferDepth = 0 then
    { setBlock v 2 bits with blockBitmap := bits, blockBitmapDirty := false }
  else { v with blockBitmap := bits, blockBitmapDirty := true }

def putInodeBits (v : Vol) (bits : Buf) : Vol :=
  if v.deferDepth = 0 then
    { setBlock v 3 bits with inodeBitmap := bits, inodeBitmapDirty := false }
  else { v with inodeBitmap := bits, inodeBitmapDirty := true }

theorem writeBlockBitmap_run (hv : Ready v) (bits : Buf) :
    writeBlockBitmap { v with blockBitmap := bits } = .ok () (putBlockBits v bits) := by
  have hw := hv.write 2 (by decide)
  by_cases h : v.deferDepth = 0 <;>
    simp [writeBlockBitmap, putBlockBits, h, run_get, run_bind, run_set, writeBlock, hw,
      run_modify, setBlock]

theorem writeInodeBitmap_run (hv : Ready v) (bits : Buf) :
    writeInodeBitmap { v with inodeBitmap := bits } = .ok () (putInodeBits v bits) := by
  have hw := hv.write 3 (by decide)
  by_cases h : v.deferDepth = 0 <;>
    simp [writeInodeBitmap, putInodeBits, h, run_get, run_bind, run_set, writeBlock, hw,
      run_modify, setBlock]

theorem putBlockBits_effect (hv : Ready v) (hl : v.bitmapsLoaded = true) (bits : Buf) :
    Effect v (putBlockBits v bits) (fun _ => False) := by
  have hd : ∀ c, 3 ≤ c → (setBlock v 2 bits).disk c = v.disk c :=
    fun c hc => setBlock_of_ne (by omega)
  unfold putBlockBits
  split_ifs with h
  · exact ⟨{ hv with
      blockSync := fun _ _ => setBlock_same v 2 bits
      inodeSync := fun h1 h2 => (hd 3 (by omega)).trans (hv.inodeSync h1 h2)
      blockClean := fun _ => rfl
      blockLoaded := fun _ => hl }, ⟨rfl, rfl, rfl, rfl, rfl, rfl, rfl⟩,
      fun c hc _ => hd c (by omega)⟩
  · exact ⟨{ hv with
      blockSync := fun _ hclean => nomatch hclean
      blockClean := fun h0 => absurd h0 h
      blockLoaded := fun _ => hl }, ⟨rfl, rfl, rfl, rfl, rfl, rfl, rfl⟩, fun _ _ _ => rfl⟩

theorem putInodeBits_effect (hv : Ready v) (hl : v.bitmapsLoaded = true) (bits : Buf) :
    Effect v (putInodeBits v bits) (fun _ => False) := by
  have hd : ∀ c, c ≠ 3 → (setBlock v 3 bits).disk c = v.disk c := fun c hc => setBlock_of_ne hc
  unfold putInodeBits
  split_ifs with h
  · exact ⟨{ hv with
      inodeSync := fun _ _ => setBlock_same v 3 bits
      blockSync := fun h1 h2 => (hd 2 (by omega)).trans (hv.blockSync h1 h2)
      inodeClean := fun _ => rfl
      inodeLoaded := fun _ => hl }, ⟨rfl, rfl, rfl, rfl, rfl, rfl, rfl⟩,
      fun c hc _ => hd c (by omega)⟩
  · exact ⟨{ hv with
      inodeSync := fun _ hclean => nomatch hclean
      inodeClean := fun h0 => absurd h0 h
      inodeLoaded := fun _ => hl }, ⟨rfl, rfl, rfl, rfl, rfl, rfl, rfl⟩, fun _ _ _ => rfl⟩

section

variable (hl : v.bitmapsLoaded = true) (bits : Buf)
include hl bits

theorem blockBits_putBlockBits : blockBits (putBlockBits v bits) = bits := by
  unfold putBlockBits blockBits
  split_ifs <;> rfl

theorem inodeBits_putBlockBits : inodeBits (putBlockBits v bits) = inodeBits v := by
  unfold putBlockBits inodeBits
  split_ifs <;> first | rfl | contradiction

theorem inodeBits_putInodeBits : inodeBits (putInodeBits v bits) = bits := by
  unfold putInodeBits inodeBits
  split_ifs <;> rfl

theorem blockBits_putInodeBits : blockBits (putInodeBits v bits) = blockBits v := by
  unfold putInodeBits blockBits
  split_ifs <;> first | rfl | contradiction

end

def beginDefer (v : Vol) : Vol := { v with deferDepth := v.deferDepth + 1 }

def endDefer (v : Vol) : Vol :=
  if v.deferDepth = 1 then
    { v with
      deferDepth := 0
      disk := fun c =>
        if c = 2 ∧ v.blockBitmapDirty = true then v.blockBitmap
        else if c = 3 ∧ v.inodeBitmapDirty = true then v.inodeBitmap
        else v.disk c
      blockBitmapDirty := false
      inodeBitmapDirty := false }
  else { v with deferDepth := v.deferDepth - 1 }

theorem bitmapWriteDeferEnd_run (hv : Ready v) (hd : v.deferDepth ≠ 0) :
    bitmapWriteDeferEnd v = .ok () (endDefer v) := by
  have h2 := hv.write 2 (by decide)
  have h3 := hv.write 3 (by decide)
  obtain ⟨d, hd⟩ := Nat.exists_eq_succ_of_ne_zero hd
  unfold bitmapWriteDeferEnd endDefer
  cases d with
  | succ d => simp [hd, run_get, run_bind, run_set, run_pure]
  | zero =>
    cases hb : v.blockBitmapDirty <;> cases hi : v.inodeBitmapDirty <;>
      simp [hd, hb, hi, h2, h3, run_get, run_bind, run_set, writeBlock, setBlock, run_modify] <;>
      (funext c; split_ifs <;> simp_all)

theorem beginDefer_ready (hv : Ready v) : Ready (beginDefer v) :=
  { hv with
    blockClean := fun h => nomatch h
    inodeClean := fun h => nomatch h }

theorem endDefer_disk (v : Vol) (hc : 4 ≤ c) : (endDefer v).disk c = v.disk c := by
  have h2 : c ≠ 2 := by omega
  have h3 : c ≠ 3 := by omega
  unfold endDefer
  split_ifs
  · simp only [h2, h3, false_and, if_false]
  · rfl

theorem endDefer_ready (hv : Ready v) : Ready (endDefer v) := by
  unfold endDefer
  split_ifs with h
  · refine { hv with
      blockSync := fun hl _ => ?_
      inodeSync := fun hl _ => ?_
      blockClean := fun _ => rfl
      inodeClean := fun _ => rfl
      blockLoaded := fun h => nomatch h
      inodeLoaded := fun h => nomatch h }
    · cases hb : v.blockBitmapDirty with
      | true => simp
      | false => simpa using hv.blockSync hl hb
    · cases hi : v.inodeBitmapDirty with
      | true => simp
      | false => simpa using hv.inodeSync hl hi
  · have back : v.deferDepth - 1 = 0 → v.deferDepth = 0 := by omega
    exact { hv with
      blockClean := fun h0 => hv.blockClean (back h0)
      inodeClean := fun h0 => hv.inodeClean (back h0) }

theorem endDefer_bits (hv : Ready v) : SameBits v (endDefer v) := by
  unfold endDefer
  split_ifs with h
  · cases hl : v.bitmapsLoaded with
    | true => exact ⟨by simp [blockBits, hl], by simp [inodeBits, hl]⟩
    | false =>
      have hb : v.blockBitmapDirty = false := by
        by_contra hb
        simp [hv.blockLoaded (by simpa using hb)] at hl
      have hi : v.inodeBitmapDirty = false := by
        by_contra hi
        simp [hv.inodeLoaded (by simpa using hi)] at hl
      exact ⟨by simp [blockBits, hl, hb], by simp [inodeBits, hl, hi]⟩
  · exact ⟨rfl, rfl⟩

theorem SameEnv.endDefer (h : SameEnv (beginDefer v) v') : SameEnv v (endDefer v') := by
  have hd : v'.deferDepth = v.deferDepth + 1 := h.deferDepth
  unfold Ext2.endDefer
  split_ifs with h1
  · have h0 : 0 = v.deferDepth := by omega
    exact ⟨h.readFails, h.writeFails, h.ramdisk, h.readOnly, h.initialised, h0, h.now⟩
  · exact ⟨h.readFails, h.writeFails, h.ramdisk, h.readOnly, h.initialised,
      by simp only [hd, Nat.add_sub_cancel], h.now⟩

theorem Post.deferred {α : Type} {body : M α} {Q : α → Vol → Prop} {E : Fail → Vol → Prop}
    (h : Post body (beginDefer v)
      (fun a v' => Ready v' ∧ SameEnv (beginDefer v) v' ∧ Q a (endDefer v'))
      (fun e v' => Ready v' ∧ SameEnv (beginDefer v) v' ∧ E e (endDefer v'))) :
    Post (deferred body) v Q E := by
  have stop : ∀ v', Ready v' → SameEnv (beginDefer v) v' →
      bitmapWriteDeferEnd v' = .ok () (Ext2.endDefer v') :=
    fun v' hr he => bitmapWriteDeferEnd_run hr (by rw [he.deferDepth]; exact Nat.succ_ne_zero _)
  refine .bind_assign ?_
  refine .bind (R := fun a v' => Ready v' ∧ SameEnv (beginDefer v) v' ∧ Q a (Ext2.endDefer v'))
    (F := E) ?_ (fun _ _ he => he) ?_
  · refine .rescue h ?_
    rintro e v' ⟨hr, he, hE⟩
    exact .bind_run (stop v' hr he) (.raise hE)
  · rintro a v' ⟨hr, he, hQ⟩
    exact .bind_run (stop v' hr he) (.ret hQ)

end SmallOS.Ext2
