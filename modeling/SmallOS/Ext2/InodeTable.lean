import SmallOS.Ext2.Ready

/-! The inode table. An inode record that fits its fields is read back as it was
written, and writing one record leaves the other 1023 alone. -/

namespace SmallOS.Ext2

open Bytes Prog Function Nat

variable {b : Buf} {nd : Inode} {ino off : Nat} {v : Vol}

structure Inode.Fits (nd : Inode) : Prop where
  mode : nd.mode < 65536
  uid : nd.uid < 65536
  gid : nd.gid < 65536
  size : nd.size < 4294967296
  linksCount : nd.linksCount < 65536
  blocks512 : nd.blocks512 < 4294967296
  atime : nd.atime < 4294967296
  ctime : nd.ctime < 4294967296
  mtime : nd.mtime < 4294967296
  block : ∀ k, nd.block k < 4294967296
  blockEnd : ∀ k, 15 ≤ k → nd.block k = 0

def Inode.wrap (nd : Inode) : Inode where
  mode := nd.mode % 65536
  uid := nd.uid % 65536
  gid := nd.gid % 65536
  size := nd.size % 4294967296
  linksCount := nd.linksCount % 65536
  blocks512 := nd.blocks512 % 4294967296
  atime := nd.atime % 4294967296
  ctime := nd.ctime % 4294967296
  mtime := nd.mtime % 4294967296
  block := fun k => if k < 15 then nd.block k % 4294967296 else 0

theorem Inode.Fits.wrap (h : nd.Fits) : nd.wrap = nd := by
  have hb : nd.wrap.block = nd.block := by
    funext k
    by_cases hk : k < 15
    · simp only [Inode.wrap, hk, if_true, mod_eq_of_lt (h.block k)]
    · simp only [Inode.wrap, hk, if_false, h.blockEnd k (by omega)]
  ext1
  · exact mod_eq_of_lt h.mode
  · exact mod_eq_of_lt h.uid
  · exact mod_eq_of_lt h.gid
  · exact mod_eq_of_lt h.size
  · exact mod_eq_of_lt h.linksCount
  · exact mod_eq_of_lt h.blocks512
  · exact mod_eq_of_lt h.atime
  · exact mod_eq_of_lt h.ctime
  · exact mod_eq_of_lt h.mtime
  · exact hb

theorem decodeInode_fits (b : Buf) (off : Nat) : (decodeInode b off).Fits where
  mode := readU16_lt ..
  uid := readU16_lt ..
  gid := readU16_lt ..
  size := readU32_lt ..
  linksCount := readU16_lt ..
  blocks512 := readU32_lt ..
  atime := readU32_lt ..
  ctime := readU32_lt ..
  mtime := readU32_lt ..
  block := by
    intro k
    simp only [decodeInode]
    split_ifs
    · exact readU32_lt ..
    · decide
  blockEnd := by
    intro k hk
    have h : ¬k < 15 := by omega
    simp only [decodeInode, h, if_false]

theorem Inode.zero_fits : Inode.zero.Fits := by
  constructor <;> simp [Inode.zero]

theorem decodeInode_congr {c : Buf} (h : ∀ i, off ≤ i → i < off + 128 → b i = c i) :
    decodeInode b off = decodeInode c off := by
  have h16 : ∀ o, o ≤ 126 → readU16 b (off + o) = readU16 c (off + o) :=
    fun o ho => readU16_congr fun i h1 h2 => h i (by omega) (by omega)
  have h32 : ∀ o, o ≤ 124 → readU32 b (off + o) = readU32 c (off + o) :=
    fun o ho => readU32_congr fun i h1 h2 => h i (by omega) (by omega)
  have hblock : (decodeInode b off).block = (decodeInode c off).block := by
    funext k
    simp only [decodeInode]
    split_ifs with hk
    · exact readU32_congr fun i h1 h2 => h i (by omega) (by omega)
    · rfl
  ext1
  · exact h16 0 (by omega)
  · exact h16 2 (by omega)
  · exact h16 24 (by omega)
  · exact h32 4 (by omega)
  · exact h16 26 (by omega)
  · exact h32 28 (by omega)
  · exact h32 8 (by omega)
  · exact h32 12 (by omega)
  · exact h32 16 (by omega)
  · exact hblock

theorem encodeInode_of_outside {i : Nat}
    (h : i < off ∨ off + 128 ≤ i) : encodeInode b off nd i = b i := by
  simp only [encodeInode]
  rw [writeU32s_of_outside (by omega), writeU32_of_outside (by omega),
    writeU32_of_outside (by omega), writeU16_of_outside (by omega),
    writeU16_of_outside (by omega), writeU32_of_outside (by omega),
    writeU32_of_outside (by omega), writeU32_of_outside (by omega),
    writeU32_of_outside (by omega), writeU32_of_outside (by omega),
    writeU16_of_outside (by omega), writeU16_of_outside (by omega)]

theorem decodeInode_encodeInode (b : Buf) (off : Nat) (nd : Inode) :
    decodeInode (encodeInode b off nd) off = nd.wrap := by
  have hblock : (decodeInode (encodeInode b off nd) off).block = nd.wrap.block := by
    funext k
    simp only [decodeInode, encodeInode, Inode.wrap]
    split_ifs with hk
    · exact readU32_writeU32s hk
    · rfl
  ext1
  all_goals first | exact hblock | skip
  all_goals
    simp (disch := omega) only [decodeInode, encodeInode, Inode.wrap,
      readU16_writeU32s_of_disjoint, readU32_writeU32s_of_disjoint,
      readU16_writeU32_of_disjoint, readU32_writeU32_of_disjoint,
      readU16_writeU16_of_disjoint, readU32_writeU16_of_disjoint,
      readU16_writeU16, readU32_writeU32]

def ValidIno (ino : Nat) : Prop := ino ≠ 0 ∧ ino ≤ 1024

abbrev Table := Nat → Inode

def table (v : Vol) : Table := fun ino =>
  if ino = 0 ∨ 1024 < ino then Inode.zero
  else decodeInode (v.disk (inodeBlock ino)) (inodeOffset ino)

theorem ValidIno.not_refused (h : ValidIno ino) : ¬(ino = 0 ∨ 1024 < ino) := by
  unfold ValidIno at h
  omega

theorem ValidIno.block_bounds (h : ValidIno ino) : 4 ≤ inodeBlock ino ∧ inodeBlock ino < 36 := by
  unfold ValidIno at h
  unfold inodeBlock
  omega

theorem table_fits (v : Vol) (ino : Nat) : (table v ino).Fits := by
  unfold table
  split_ifs
  · exact Inode.zero_fits
  · exact decodeInode_fits ..

theorem table_congr {v' : Vol} (h : ∀ c, 4 ≤ c → c < 36 → v'.disk c = v.disk c) :
    table v' = table v := by
  funext ino
  unfold table
  split_ifs with hi
  · rfl
  · have hino : ValidIno ino := by unfold ValidIno; omega
    rw [h _ hino.block_bounds.1 hino.block_bounds.2]

theorem readInode_of_ready (hv : Ready v) (hi : ValidIno ino) :
    readInode v ino = some (table v ino) := by
  have hb : inodeBlock ino < 8192 := by have := hi.block_bounds; omega
  simp only [readInode, table, hi.not_refused, if_false, readBlock_of_ready hv hb, Option.map_some]

theorem readInode_eq_some (hv : Ready v)
    (h : readInode v ino = some nd) : ValidIno ino ∧ nd = table v ino := by
  by_cases hi : ino = 0 ∨ 1024 < ino
  · simp only [readInode, hi, if_true, reduceCtorEq] at h
  · have hino : ValidIno ino := by unfold ValidIno; omega
    rw [readInode_of_ready hv hino] at h
    exact ⟨hino, (Option.some.inj h).symm⟩

def putInode (v : Vol) (ino : Nat) (nd : Inode) : Vol :=
  setBlock v (inodeBlock ino) (encodeInode (v.disk (inodeBlock ino)) (inodeOffset ino) nd)

theorem writeInode_run (hv : Ready v) (hi : ValidIno ino) (nd : Inode) :
    writeInode ino nd v = .ok () (putInode v ino nd) := by
  have hb : inodeBlock ino < 8192 := by have := hi.block_bounds; omega
  have hread := query_run (e := Fail.device) (f := (readBlock · (inodeBlock ino)))
    (readBlock_of_ready hv hb)
  unfold writeInode
  rw [if_neg hi.not_refused]
  simp only [run_bind, hread, writeBlock_run hv hb, putInode]

theorem putInode_effect (hv : Ready v) (hi : ValidIno ino) (nd : Inode) :
    Effect v (putInode v ino nd) (· < 36) := by
  refine (setBlock_effect hv hi.block_bounds.1 _).mono ?_
  rintro c rfl
  exact hi.block_bounds.2

theorem putInode_bits (hi : ValidIno ino) (nd : Inode) : SameBits v (putInode v ino nd) :=
  setBlock_bits hi.block_bounds.1 _

theorem table_putInode (v : Vol) (hi : ValidIno ino) (nd : Inode) :
    table (putInode v ino nd) = update (table v) ino nd.wrap := by
  funext j
  by_cases hj : j = ino
  · subst hj
    simp only [update_self, table, hi.not_refused, if_false, putInode, setBlock_same,
      decodeInode_encodeInode]
  · rw [update_of_ne hj]
    unfold table
    split_ifs with hjr
    · rfl
    · by_cases hb : inodeBlock j = inodeBlock ino
      · -- two records of one block are a multiple of 128 bytes apart
        have hoff : inodeOffset j + 128 ≤ inodeOffset ino ∨
            inodeOffset ino + 128 ≤ inodeOffset j := by
          unfold ValidIno at hi
          unfold inodeBlock at hb
          unfold inodeOffset
          omega
        rw [putInode, hb, setBlock_same]
        exact decodeInode_congr fun i h1 h2 => encodeInode_of_outside (by omega)
      · rw [putInode, setBlock_of_ne hb]

theorem table_putInode_of_fits (v : Vol) (hi : ValidIno ino)
    (hf : nd.Fits) : table (putInode v ino nd) = update (table v) ino nd := by
  rw [table_putInode v hi, hf.wrap]

end SmallOS.Ext2
