import SmallOS.Ext2.Alloc
import SmallOS.Ext2.InodeTable

/-! What the allocators do to a volume in working order. A block or a run of
blocks is handed out only from the data region and only when its bits were clear;
the bits of all other blocks, the inode bitmap and the blocks themselves stay. -/

namespace SmallOS.Ext2
open Bytes Prog

variable {bits : Buf} {b block count first hint n runCount runFirst start : Nat} {S T : Nat → Prop}
  {v v' : Vol}

theorem firstClear_eq_some (h : firstClear bits n start = some b) :
    start ≤ b ∧ b < start + n ∧ bitTest bits b = false := by
  induction n generalizing start with
  | zero => simp only [firstClear, reduceCtorEq] at h
  | succ n ih =>
    simp only [firstClear] at h
    split_ifs at h with hbit
    · obtain ⟨h1, h2, h3⟩ := ih h
      exact ⟨by omega, by omega, h3⟩
    · obtain rfl := Option.some.inj h
      exact ⟨by omega, by omega, by simpa using hbit⟩

theorem firstClear_eq_none (h : firstClear bits n start = none) :
    ∀ c, start ≤ c → c < start + n → bitTest bits c = true := by
  induction n generalizing start with
  | zero => intro c h1 h2; omega
  | succ n ih =>
    simp only [firstClear] at h
    split_ifs at h with hbit
    intro c h1 h2
    by_cases hc : c = start
    · rw [hc]; exact hbit
    · exact ih h c (by omega) (by omega)

theorem findFreeBlock_eq_some (h36 : 36 ≤ hint) (hmax : hint ≤ 8192)
    (h : findFreeBlock bits hint = some b) : 36 ≤ b ∧ b < 8192 ∧ bitTest bits b = false := by
  unfold findFreeBlock at h
  split at h
  · next first hfirst =>
    obtain rfl := Option.some.inj h
    obtain ⟨h1, h2, h3⟩ := firstClear_eq_some hfirst
    exact ⟨by omega, by omega, h3⟩
  · obtain ⟨h1, h2, h3⟩ := firstClear_eq_some h
    exact ⟨by omega, by omega, h3⟩

theorem findFreeBlock_eq_none (h : findFreeBlock bits hint = none) :
    ∀ c, 36 ≤ c → c < 8192 → bitTest bits c = true := by
  unfold findFreeBlock at h
  split at h
  · cases h
  · next hnone =>
    intro c h1 h2
    by_cases hc : hint ≤ c
    · exact firstClear_eq_none hnone c hc (by omega)
    · exact firstClear_eq_none h c h1 (by omega)

theorem findRun_eq_some (hrun : runCount ≠ 0 → runFirst + runCount = block ∧
      ∀ c, runFirst ≤ c → c < block → bitTest bits c = false)
    (h : findRun bits count n block runFirst runCount = some first) :
    block - runCount ≤ first ∧ first + count ≤ block + n ∧
      ∀ c, first ≤ c → c < first + count → bitTest bits c = false := by
  induction n generalizing block runFirst runCount with
  | zero => simp only [findRun, reduceCtorEq] at h
  | succ n ih =>
    rw [findRun] at h
    by_cases hbit : bitTest bits block = true
    · rw [if_pos hbit] at h
      obtain ⟨h1, h2, h3⟩ := ih (fun h0 => absurd rfl h0) h
      exact ⟨by omega, by omega, h3⟩
    · rw [if_neg hbit] at h
      obtain ⟨start, hstart⟩ : ∃ start, start = if runCount = 0 then block else runFirst := ⟨_, rfl⟩
      have hlen : start + (runCount + 1) = block + 1 := by
        split_ifs at hstart with h0
        · omega
        · have := (hrun h0).1
          omega
      have hclear : ∀ c, start ≤ c → c < block + 1 → bitTest bits c = false := by
        intro c h1 h2
        by_cases hc : c = block
        · rw [hc]
          simpa using hbit
        · have h0 : runCount ≠ 0 := by omega
          rw [if_neg h0] at hstart
          exact (hrun h0).2 c (by omega) (by omega)
      simp only [← hstart] at h
      split_ifs at h with hcount
      · obtain rfl := Option.some.inj h
        exact ⟨by omega, by omega, fun c h1 h2 => hclear c h1 (by omega)⟩
      · obtain ⟨h1, h2, h3⟩ := ih (fun _ => ⟨hlen, hclear⟩) h
        exact ⟨by omega, by omega, h3⟩

theorem findFreeRun_eq_some (h36 : 36 ≤ hint)
    (hmax : hint ≤ 8192) (h : findFreeRun bits count hint = some first) :
    36 ≤ first ∧ first + count ≤ 8192 ∧ (first + count ≤ hint ∨ hint ≤ first) ∧
      ∀ c, first ≤ c → c < first + count → bitTest bits c = false := by
  unfold findFreeRun at h
  split at h
  · next b hb =>
    obtain rfl := Option.some.inj h
    obtain ⟨h1, h2, h3⟩ := findRun_eq_some (fun h0 => absurd rfl h0) hb
    exact ⟨by omega, by omega, .inr h1, h3⟩
  · obtain ⟨h1, h2, h3⟩ := findRun_eq_some (fun h0 => absurd rfl h0) h
    exact ⟨h1, by omega, .inl (by omega), h3⟩

theorem findRun_eq_none
    (hcount : runCount < count) (h : findRun bits count n block runFirst runCount = none) :
    ∀ a, block ≤ a + runCount → a + count ≤ block + n →
      ∃ c, a ≤ c ∧ c < a + count ∧ bitTest bits c = true := by
  induction n generalizing block runFirst runCount with
  | zero => intro a h1 h2; omega
  | succ n ih =>
    intro a h1 h2
    rw [findRun] at h
    by_cases hbit : bitTest bits block = true
    · rw [if_pos hbit] at h
      by_cases ha : block < a
      · exact ih (by omega) h a (by omega) (by omega)
      · exact ⟨block, by omega, by omega, hbit⟩
    · rw [if_neg hbit] at h
      by_cases hend : runCount + 1 = count
      · rw [if_pos hend] at h
        cases h
      · rw [if_neg hend] at h
        exact ih (by omega) h a (by omega) (by omega)

theorem findFreeRun_eq_none (hcount : 0 < count)
    (hmax : hint ≤ 8192) (h : findFreeRun bits count hint = none) :
    ∀ a, 36 ≤ a → a + count ≤ 8192 → a + count ≤ hint ∨ hint ≤ a →
      ∃ c, a ≤ c ∧ c < a + count ∧ bitTest bits c = true := by
  unfold findFreeRun at h
  split at h
  · cases h
  · next hhigh =>
    intro a h1 h2 side
    obtain below | above := side
    · exact findRun_eq_none hcount h a (by omega) (by omega)
    · exact findRun_eq_none hcount hhigh a (by omega) (by omega)

theorem Effect.setHint (h : Effect v v' S) (hint : Nat) :
    Effect v { v' with nextAllocBlock := hint } S :=
  ⟨{ h.ready with }, { h.env with }, h.disk⟩

def searchFrom (v : Vol) : Vol := resetHint (loadBitmaps v)

theorem searchFrom_eq (v : Vol) :
    searchFrom v = { loadBitmaps v with nextAllocBlock := (searchFrom v).nextAllocBlock } := by
  unfold searchFrom resetHint
  split_ifs <;> rfl

theorem searchFrom_next (v : Vol) : (searchFrom v).nextAllocBlock =
    if v.nextAllocBlock < 36 ∨ 8192 ≤ v.nextAllocBlock then 36 else v.nextAllocBlock := by
  have hload : (loadBitmaps v).nextAllocBlock = v.nextAllocBlock := by
    unfold loadBitmaps
    split_ifs <;> rfl
  simp only [searchFrom, resetHint, hload]
  split_ifs
  · rfl
  · exact hload

theorem searchFrom_hint (v : Vol) :
    36 ≤ (searchFrom v).nextAllocBlock ∧ (searchFrom v).nextAllocBlock ≤ 8192 := by
  rw [searchFrom_next]
  split_ifs <;> omega

theorem searchFrom_effect (hv : Ready v) : Effect v (searchFrom v) (fun _ => False) := by
  rw [searchFrom_eq]
  exact (loadBitmaps_effect hv).setHint _

theorem searchFrom_bits (v : Vol) : SameBits v (searchFrom v) := by
  have h := loadBitmaps_bits v
  rw [searchFrom_eq]
  exact ⟨h.blocks, h.inodes⟩

theorem searchFrom_loaded (v : Vol) : (searchFrom v).bitmapsLoaded = true := by
  rw [searchFrom_eq]
  exact loadBitmaps_loaded v

theorem searchFrom_blockBitmap (v : Vol) : (searchFrom v).blockBitmap = blockBits v :=
  (searchFrom_bits v).blockBitmap (searchFrom_loaded v)

structure Allocated (v v' : Vol) (first n : Nat) : Prop
    extends Effect v v' (fun c => first ≤ c ∧ c < first + n) where
  low : 36 ≤ first
  high : first + n ≤ 8192
  free : ∀ c, first ≤ c → c < first + n → usedBlock v c = false
  used : ∀ c, usedBlock v' c = (decide (first ≤ c ∧ c < first + n) || usedBlock v c)
  inodes : inodeBits v' = inodeBits v

structure Idle (v v' : Vol) : Prop extends Effect v v' (fun _ => False), SameBits v v'

theorem Idle.refl (hv : Ready v) : Idle v v := ⟨Effect.refl hv _, SameBits.refl v⟩

theorem searchFrom_idle (hv : Ready v) : Idle v (searchFrom v) :=
  ⟨searchFrom_effect hv, searchFrom_bits v⟩

theorem markRun_allocated (hv : Ready v) (hint : Nat) (hlow : 36 ≤ first) (hhigh : first + n ≤ 8192)
    (hfree : ∀ c, first ≤ c → c < first + n → bitTest (blockBits v) c = false) :
    Allocated v
      { putBlockBits (searchFrom v) (bitSetRun (blockBits v) first n) with nextAllocBlock := hint }
      first n := by
  have hl := searchFrom_loaded v
  have hs := searchFrom_effect hv
  have hp := (hs.trans (putBlockBits_effect hs.ready hl (bitSetRun (blockBits v) first n))).setHint hint
  refine ⟨hp.mono fun _ h => h.elim, hlow, hhigh, hfree, fun c => ?_, ?_⟩
  · have hbits : blockBits { putBlockBits (searchFrom v) (bitSetRun (blockBits v) first n) with
        nextAllocBlock := hint } = bitSetRun (blockBits v) first n :=
      blockBits_putBlockBits hl _
    rw [usedBlock, hbits, bitTest_bitSetRun]
    rfl
  · exact (inodeBits_putBlockBits hl _).trans (searchFrom_bits v).inodes

theorem allocBlockWithZero_post (hv : Ready v) (zero : Bool) : Post (allocBlockWithZero zero) v
      (fun b v' => Allocated v v' b 1 ∧ v'.disk b = if zero then zeros else v.disk b)
      (fun e v' => e = .noBlock ∧ Idle v v' ∧ ∀ c, 36 ≤ c → c < 8192 → usedBlock v c = true) := by
  refine .bind_run (readBitmaps_run hv) (.bind_assign (.bind_get ?_))
  have hhint := searchFrom_hint v
  have hs := searchFrom_effect hv
  have hl := searchFrom_loaded v
  rw [show resetHint (loadBitmaps v) = searchFrom v from rfl, searchFrom_blockBitmap]
  cases hfind : findFreeBlock (blockBits v) (searchFrom v).nextAllocBlock with
  | none => exact .raise ⟨rfl, searchFrom_idle hv, findFreeBlock_eq_none hfind⟩
  | some b =>
    obtain ⟨hb36, hbmax, hclear⟩ := findFreeBlock_eq_some hhint.1 hhint.2 hfind
    have hfree : ∀ c, b ≤ c → c < b + 1 → bitTest (blockBits v) c = false := by
      intro c h1 h2
      obtain rfl : c = b := by omega
      exact hclear
    have hmark := markRun_allocated hv (if 8192 ≤ b + 1 then 36 else b + 1) hb36 (by omega) hfree
    refine .bind_set (.bind_run (writeBlockBitmap_run hs.ready _) ?_)
    cases zero with
    | false =>
      refine .bind_assign (.ret ⟨hmark, ?_⟩)
      exact (putBlockBits_effect hs.ready hl _).disk b (by omega) id |>.trans (hs.disk b (by omega) id)
    | true =>
      have hp := putBlockBits_effect hs.ready hl (bitSetRun (blockBits v) b 1)
      refine .bind_run (writeBlock_run hp.ready hbmax zeros) (.bind_assign (.ret ⟨?_, ?_⟩))
      · have hz := setBlock_effect hmark.ready (show 4 ≤ b by omega) zeros
        have hzb := setBlock_bits (v := { putBlockBits (searchFrom v) (bitSetRun (blockBits v) b 1)
          with nextAllocBlock := if 8192 ≤ b + 1 then 36 else b + 1 }) (show 4 ≤ b by omega) zeros
        refine ⟨hmark.toEffect.trans (hz.mono fun c hc => ?_), hb36, by omega, hmark.free, ?_, ?_⟩
        · omega
        · intro c
          exact (hzb.usedBlock c).trans (hmark.used c)
        · exact hzb.inodes.trans hmark.inodes
      · exact setBlock_same _ b zeros

theorem allocBlockRun_post (hv : Ready v) (hcount : count ≠ 0) : Post (allocBlockRun count) v
      (fun first v' => Allocated v v' first count ∧ ∀ c, 4 ≤ c → v'.disk c = v.disk c)
      (fun e v' => e = .noBlock ∧ Idle v v') := by
  unfold allocBlockRun
  rw [if_neg hcount]
  refine .bind_run (readBitmaps_run hv) (.bind_assign (.bind_get ?_))
  have hhint := searchFrom_hint v
  have hs := searchFrom_effect hv
  rw [show resetHint (loadBitmaps v) = searchFrom v from rfl, searchFrom_blockBitmap]
  cases hfind : findFreeRun (blockBits v) count (searchFrom v).nextAllocBlock with
  | none => exact .raise ⟨rfl, searchFrom_idle hv⟩
  | some first =>
    obtain ⟨hlow, hhigh, _, hclear⟩ := findFreeRun_eq_some hhint.1 hhint.2 hfind
    refine .bind_set (.bind_run (writeBlockBitmap_run hs.ready _) ?_)
    refine (.bind_assign (.ret ⟨?_, ?_⟩))
    · exact markRun_allocated hv _ hlow hhigh hclear
    · intro c hc
      exact ((putBlockBits_effect hs.ready (searchFrom_loaded v) _).disk c hc id).trans
        (hs.disk c hc id)

structure Freed (v v' : Vol) (S : Nat → Prop) : Prop extends Effect v v' (fun _ => False) where
  used : ∀ c, usedBlock v' c = true ↔ usedBlock v c = true ∧ ¬S c
  inodes : inodeBits v' = inodeBits v

theorem Freed.refl (hv : Ready v) : Freed v v (fun _ => False) :=
  ⟨Effect.refl hv _, fun _ => by simp, rfl⟩

theorem Freed.trans {v1 v2 : Vol} (h : Freed v v1 S) (k : Freed v1 v2 T) :
    Freed v v2 (fun c => S c ∨ T c) :=
  ⟨h.toEffect.trans k.toEffect, fun c => by rw [k.used, h.used, not_or, and_assoc],
    k.inodes.trans h.inodes⟩

theorem Freed.congr (h : Freed v v' S) (e : ∀ c, S c ↔ T c) : Freed v v' T :=
  ⟨h.toEffect, fun c => by rw [h.used, e c], h.inodes⟩

theorem freeBlock_post (hv : Ready v) (h0 : b ≠ 0) (hb : b < 8192) :
    Post (freeBlock b) v (fun _ v' => Freed v v' (· = b)) (fun _ _ => False) := by
  have hl := loadBitmaps_loaded v
  have hs := loadBitmaps_effect hv
  have hbits := loadBitmaps_bits v
  obtain ⟨hint, hhint⟩ : ∃ hint, hint =
    if b < (loadBitmaps v).nextAllocBlock then b else (loadBitmaps v).nextAllocBlock := ⟨_, rfl⟩
  have hset := hs.setHint hint
  unfold freeBlock
  rw [if_neg (by omega)]
  refine .bind_run (readBitmaps_run hv) (.bind_assign ?_)
  rw [hbits.blockBitmap hl, ← hhint]
  refine .of_run (writeBlockBitmap_run hset.ready (bitClear (blockBits v) b)) ?_
  refine ⟨hset.trans (putBlockBits_effect hset.ready hl _), fun c => ?_, ?_⟩
  · rw [usedBlock, blockBits_putBlockBits (by exact hl), bitTest_bitClear]
    simp only [Bool.and_eq_true, Bool.not_eq_true', decide_eq_false_iff_not, usedBlock, and_comm]
  · exact (inodeBits_putBlockBits (by exact hl) _).trans hbits.inodes

theorem allocInode_post (hv : Ready v) : Post allocInode v
      (fun ino v' => Effect v v' (fun _ => False) ∧ blockBits v' = blockBits v ∧
        inodeBits v' = bitSet (inodeBits v) (ino - 1) ∧ 11 ≤ ino ∧ ino ≤ 1024 ∧
        usedInode v ino = false)
      (fun e v' => e = .noInode ∧ Idle v v' ∧ ∀ ino, 11 ≤ ino → ino ≤ 1024 → usedInode v ino = true) := by
  have hl := loadBitmaps_loaded v
  have hs := loadBitmaps_effect hv
  have hbits := loadBitmaps_bits v
  refine .bind_run (readBitmaps_run hv) (.bind_get ?_)
  rw [hbits.inodeBitmap hl]
  cases hfind : firstClear (inodeBits v) 1014 10 with
  | none =>
    refine .raise ⟨rfl, ⟨hs, hbits⟩, fun ino h1 h2 => ?_⟩
    exact firstClear_eq_none hfind (ino - 1) (by omega) (by omega)
  | some i =>
    obtain ⟨h1, h2, h3⟩ := firstClear_eq_some hfind
    refine .bind_set (.bind_run (writeInodeBitmap_run hs.ready _) (.ret ?_))
    exact ⟨hs.trans (putInodeBits_effect hs.ready hl _),
      (blockBits_putInodeBits hl _).trans hbits.blocks, inodeBits_putInodeBits hl _,
      by omega, by omega, h3⟩

theorem freeInode_post (hv : Ready v) {ino : Nat} (hi : ValidIno ino) : Post (freeInode ino) v
      (fun _ v' => Effect v v' (fun _ => False) ∧ blockBits v' = blockBits v ∧
        inodeBits v' = bitClear (inodeBits v) (ino - 1)) (fun _ _ => False) := by
  have hl := loadBitmaps_loaded v
  have hs := loadBitmaps_effect hv
  have hbits := loadBitmaps_bits v
  unfold freeInode
  rw [if_neg hi.not_refused]
  refine .bind_run (readBitmaps_run hv) (.bind_assign ?_)
  rw [hbits.inodeBitmap hl]
  refine .of_run (writeInodeBitmap_run hs.ready _) ?_
  exact ⟨hs.trans (putInodeBits_effect hs.ready hl _),
    (blockBits_putInodeBits hl _).trans hbits.blocks, inodeBits_putInodeBits hl _⟩

end SmallOS.Ext2
