import SmallOS.Ext2.Directory
import SmallOS.Ext2.Ownership

/-! Volumes given by their records, as a mount finds them. Block numbers stand in the
records only: a pointer block of such a volume is still empty. -/

namespace SmallOS.Ext2

open Bytes Prog Ownership List Option

def record (mode size links : Nat) (bs : List Nat) : Inode :=
  { Inode.zero with
    mode := mode, size := size, linksCount := links, blocks512 := 8 * bs.length,
    block := fun k => bs.getD k 0 }

theorem record_fits {mode size links : Nat} {bs : List Nat} (hmode : mode < 65536)
    (hsize : size < 4294967296) (hlinks : links < 65536) (hlen : bs.length ≤ 15)
    (hbs : ∀ b ∈ bs, b < 8192) : (record mode size links bs).Fits := by
  refine { Inode.zero_fits with
    mode := hmode, size := hsize, linksCount := hlinks,
    blocks512 := show 8 * bs.length < 4294967296 by omega,
    block := fun k => ?_, blockEnd := fun k hk => getD_eq_default _ _ (by omega) }
  show bs.getD k 0 < 4294967296
  by_cases hk : k < bs.length
  · rw [getD_eq_getElem _ _ hk]
    have := hbs _ (getElem_mem hk)
    omega
  · rw [getD_eq_default _ _ (by omega)]
    decide

def dirRecords : Nat → List (Nat × Nat × Name × Nat) → Buf
  | _, [] => zeros
  | off, (ino, recLen, name, type) :: rest =>
    (dirWriteEntry (dirRecords (off + recLen) rest) off ino recLen name type).getD zeros

def putAll (records : List (Nat × Inode)) (v : Vol) : Vol :=
  records.foldr (fun r w => putInode w r.1 r.2) v

structure Sample where
  records : List (Nat × Inode)
  data : Nat → Buf
  blocks : Buf
  inodes : Buf

def Sample.bare (S : Sample) : Vol where
  disk b :=
    if b = 2 then S.blocks else if b = 3 then S.inodes else if b < 36 then zeros else S.data b
  readFails _ := false
  writeFails _ := false
  ramdisk := true
  readOnly := false
  initialised := true
  bitmapsLoaded := false
  blockBitmap := zeros
  inodeBitmap := zeros
  deferDepth := 0
  blockBitmapDirty := false
  inodeBitmapDirty := false
  nextAllocBlock := 36
  now := 0

def Sample.volume (S : Sample) : Vol := putAll S.records S.bare

structure Sample.Sound (S : Sample) : Prop where
  valid : ∀ r ∈ S.records, r.1 ≠ 0 ∧ r.1 ≤ 1024
  fits : ∀ r ∈ S.records, r.2.Fits
  live : ∀ r ∈ S.records, ∀ k < 14, r.2.owned.block k ≠ 0 →
    36 ≤ r.2.owned.block k ∧ r.2.owned.block k < 8192 ∧
      bitTest S.blocks (r.2.owned.block k) = true
  apart : ∀ r ∈ S.records, ∀ r' ∈ S.records, ∀ k < 14, ∀ k' < 14, r.2.owned.block k ≠ 0 →
    r.2.owned.block k = r'.2.owned.block k' → r.1 = r'.1 ∧ k = k'
  empty : ∀ r ∈ S.records, ∀ k, k = 12 ∨ k = 13 → r.2.owned.block k ≠ 0 →
    S.data (r.2.owned.block k) = zeros
  reserved : ∀ b < 36, bitTest S.blocks b = true

theorem Sample.direct {S : Sample} (rs : List (Nat × Nat × Nat × Nat × List Nat))
    (hrs : S.records = rs.map fun r => (r.1, record r.2.1 r.2.2.1 r.2.2.2.1 r.2.2.2.2))
    (small : ∀ r ∈ rs, r.2.1 < 65536 ∧ r.2.2.1 < 4294967296 ∧ r.2.2.2.1 < 65536 ∧
      r.2.2.2.2.length ≤ 12 ∧ ∀ b ∈ r.2.2.2.2, b < 8192) :
    (∀ r ∈ S.records, r.2.Fits) ∧ ∀ r ∈ S.records, ∀ k, k = 12 ∨ k = 13 →
      r.2.owned.block k ≠ 0 → S.data (r.2.owned.block k) = zeros := by
  refine ⟨fun r hr => ?_, fun r hr k hk hne => absurd ?_ hne⟩
  all_goals
    rw [hrs] at hr
    obtain ⟨q, hq, rfl⟩ := List.mem_map.mp hr
    obtain ⟨mode, size, links, len, bs⟩ := small q hq
  · exact record_fits mode size links (by omega) bs
  · unfold Inode.owned
    split_ifs
    · rfl
    · exact getD_eq_default _ _ (by omega)

section

variable {v : Vol} {rs : List (Nat × Inode)}

theorem putAll_keeps (hv : Ready v) (hvalid : ∀ r ∈ rs, ValidIno r.1) :
    Effect v (putAll rs v) (· < 36) ∧ SameBits v (putAll rs v) := by
  induction rs with
  | nil => exact ⟨Effect.refl hv _, SameBits.refl v⟩
  | cons r rs ih =>
    obtain ⟨heff, hbits⟩ := ih fun q hq => hvalid q (mem_cons_of_mem _ hq)
    have hr : ValidIno r.1 := hvalid r (mem_cons_self ..)
    exact ⟨heff.trans (putInode_effect heff.ready hr r.2), hbits.trans (putInode_bits hr r.2)⟩

theorem table_putAll (hvalid : ∀ r ∈ rs, ValidIno r.1) (hfits : ∀ r ∈ rs, r.2.Fits)
    (ino : Nat) : table (putAll rs v) ino = (rs.lookup ino).getD (table v ino) := by
  induction rs with
  | nil => rfl
  | cons r rs ih =>
    have hr : ValidIno r.1 := hvalid r (mem_cons_self ..)
    have hrest := ih (fun q hq => hvalid q (mem_cons_of_mem _ hq))
      fun q hq => hfits q (mem_cons_of_mem _ hq)
    show table (putInode (putAll rs v) r.1 r.2) ino = _
    rw [table_putInode_of_fits _ hr (hfits r (mem_cons_self ..)), lookup_cons]
    by_cases hi : ino = r.1
    · subst hi
      simp only [Function.update_self, beq_self_eq_true, getD_some]
    · simp only [Function.update_of_ne hi, beq_eq_false_iff_ne.mpr hi, hrest]

end

section

variable {S : Sample}

theorem Sample.bare_ready : Ready S.bare := by
  constructor <;> simp [Sample.bare]

theorem Sample.table_bare (ino : Nat) : table S.bare ino = Inode.zero := by
  unfold table
  split_ifs with hi
  · rfl
  · have hino : ValidIno ino := by unfold ValidIno; omega
    obtain ⟨hlow, hhigh⟩ := hino.block_bounds
    have hdisk : S.bare.disk (inodeBlock ino) = zeros := by
      simp only [Sample.bare]
      rw [if_neg (by omega), if_neg (by omega), if_pos hhigh]
    rw [hdisk]
    ext k <;> simp [decodeInode, Inode.zero, readU16, readU32, zeros]

theorem Sample.Sound.ready (h : S.Sound) : Ready S.volume :=
  (putAll_keeps bare_ready h.valid).1.ready

theorem Sample.Sound.table (h : S.Sound) (ino : Nat) :
    table S.volume ino = (S.records.lookup ino).getD Inode.zero := by
  rw [Sample.volume, table_putAll h.valid h.fits, table_bare]

theorem Sample.Sound.disk (h : S.Sound) {b : Nat} (hb : 36 ≤ b) : S.volume.disk b = S.data b := by
  rw [Sample.volume, (putAll_keeps bare_ready h.valid).1.disk b (by omega) (by omega)]
  simp only [Sample.bare]
  rw [if_neg (by omega), if_neg (by omega), if_neg (by omega)]

theorem Sample.Sound.usedBlock (h : S.Sound) (b : Nat) :
    usedBlock S.volume b = bitTest S.blocks b := by
  rw [Sample.volume, (putAll_keeps bare_ready h.valid).2.usedBlock]
  rfl

theorem Sample.Sound.owner_ne (h : S.Sound) {j : Nat} {s : Slot}
    (hne : owner S.volume.disk (books S.volume) (j, s) ≠ 0) :
    ∃ r ∈ S.records, r.1 = j ∧ ∃ k < 14, s = .root k ∧
      owner S.volume.disk (books S.volume) (j, s) = r.2.owned.block k := by
  simp only [owner, books, h.table] at hne ⊢
  cases hlook : S.records.lookup j with
  | none =>
    rw [hlook] at hne
    exact absurd (Inode.Blank.tree (Inode.Blank.owned fun _ => rfl) _ s) hne
  | some nd =>
    have hmem : (j, nd) ∈ S.records := by
      rw [lookup_eq_some_iff] at hlook
      obtain ⟨l1, l2, hl, _⟩ := hlook
      rw [hl]
      simp
    rw [hlook, getD_some] at hne
    have hentry : ∀ k, k = 12 ∨ k = 13 → ∀ i, entryAt S.volume.disk (nd.owned.block k) i = 0 := by
      intro k hk i
      by_cases hb : nd.owned.block k = 0
      · rw [hb, entryAt_zero]
      · obtain ⟨hlow, _, _⟩ := h.live _ hmem k (by omega) hb
        unfold entryAt
        split_ifs
        · rfl
        · rw [h.disk hlow, h.empty _ hmem k hk hb]
          simp [readU32, zeros]
    cases s with
    | root k =>
      simp only [tree] at hne ⊢
      split_ifs at hne with hk
      · exact ⟨_, hmem, rfl, k, hk, rfl, by simp only [getD_some, if_pos hk]⟩
      · exact absurd rfl hne
    | entry p i =>
      cases p with
      | single => exact absurd (hentry 12 (.inl rfl) i) hne
      | double => exact absurd (hentry 13 (.inr rfl) i) hne
      | outer o =>
        simp only [tree, ptr, hentry 13 (.inr rfl) o, entryAt_zero] at hne
        exact absurd rfl hne

theorem Sample.Sound.consistent (h : S.Sound) : Consistent S.volume := by
  refine ⟨⟨?_, ?_⟩, fun b hb => by rw [h.usedBlock]; exact h.reserved b hb⟩
  · rintro ⟨j, s⟩ hne
    obtain ⟨r, hr, rfl, k, hk, rfl, heq⟩ := h.owner_ne hne
    rw [heq] at hne ⊢
    obtain ⟨hlow, hhigh, hbit⟩ := h.live r hr k hk hne
    exact ⟨hlow, hhigh, by rw [h.usedBlock]; exact hbit⟩
  · rintro ⟨j, s⟩ ⟨j', s'⟩ hne hsame
    obtain ⟨r, hr, rfl, k, hk, rfl, heq⟩ := h.owner_ne hne
    obtain ⟨r', hr', rfl, k', hk', rfl, heq'⟩ := h.owner_ne (hsame ▸ hne)
    rw [heq, heq'] at hsame
    obtain ⟨hino, rfl⟩ := h.apart r hr r' hr' k hk k' hk' (heq ▸ hne) hsame
    rw [hino]

end

end SmallOS.Ext2
