import SmallOS.Ext2.Names
import SmallOS.Ext2.Calls

/-! The calls that add a name. Each of them takes an inode, writes its record and puts an entry for
it into the parent directory, and can fail after each of these steps: `Born` is the state in which
the new inode exists without a name. -/

namespace SmallOS.Ext2

open Bytes Prog Ownership Function Option Nat Inode

variable {c : CreatePath} {E : Fail → Vol → Prop} {j mode now rdev : Nat} {path : Path} {α : Type}

structure Taken (v : Vol) (ino : Nat) (v' : Vol) : Prop extends Effect v v' (fun _ => False) where
  blocks : blockBits v' = blockBits v
  inodes : inodeBits v' = bitSet (inodeBits v) (ino - 1)
  low : 11 ≤ ino
  high : ino ≤ 1024
  fresh : usedInode v ino = false

structure Dropped (v : Vol) (ino : Nat) (v' : Vol) : Prop extends Effect v v' (fun _ => False) where
  blocks : blockBits v' = blockBits v
  inodes : inodeBits v' = bitClear (inodeBits v) (ino - 1)

structure Born (v : Vol) (ino : Nat) (nd : Inode) (v' : Vol) : Prop where
  ready : Ready v'
  env : SameEnv v v'
  consistent : Consistent v'
  low : 11 ≤ ino
  high : ino ≤ 1024
  fresh : usedInode v ino = false
  inodes : inodeBits v' = bitSet (inodeBits v) (ino - 1)
  record : table v' = update (table v) ino nd
  live : ∀ c, DataLive v c → usedBlock v' c = true ∧ v'.disk c = v.disk c

variable {Q : α → Vol → Prop}

section

variable {v v0 v1 v2 : Vol} {ino : Nat} {nd blank : Inode}

theorem Taken.valid (h : Taken v ino v1) : ValidIno ino := by
  have := h.low
  have := h.high
  unfold ValidIno
  omega

theorem Taken.table (h : Taken v ino v1) : table v1 = table v :=
  table_congr fun c hc _ => h.disk c hc id

theorem Taken.consistent (h : Taken v ino v1) (hc : Consistent v) : Consistent v1 :=
  hc.transfer h.toEffect h.blocks

theorem Taken.live (h : Taken v ino v1) {c : Nat} (hc : DataLive v c) :
    DataLive v1 c ∧ v1.disk c = v.disk c := by
  have hlow := hc.1
  refine ⟨⟨hc.1, hc.2.1, ?_⟩, h.disk c (by omega) id⟩
  simp only [usedBlock, h.blocks]
  exact hc.2.2

theorem Dropped.table (h : Dropped v ino v1) : table v1 = table v :=
  table_congr fun c hc _ => h.disk c hc id

theorem Dropped.consistent (h : Dropped v ino v1) (hc : Consistent v) : Consistent v1 :=
  hc.transfer h.toEffect h.blocks

theorem allocInode_taken (hv : Ready v) : Post allocInode v (fun ino v' => Taken v ino v')
      (fun e v' => e = .noInode ∧ Idle v v' ∧
        ∀ ino, 11 ≤ ino → ino ≤ 1024 → usedInode v ino = true) :=
  (allocInode_post hv).weaken (fun _ _ ⟨h1, h2, h3, h4, h5, h6⟩ => ⟨h1, h2, h3, h4, h5, h6⟩)

theorem freeInode_dropped (hv : Ready v) (hi : ValidIno ino) :
    Post (freeInode ino) v (fun _ v' => Dropped v ino v') (fun _ _ => False) :=
  (freeInode_post hv hi).weaken (fun _ _ ⟨h1, h2, h3⟩ => ⟨h1, h2, h3⟩)

theorem Born.valid (h : Born v ino nd v1) : ValidIno ino := by
  have := h.low
  have := h.high
  unfold ValidIno
  omega

theorem Born.table_self (h : Born v ino nd v1) : table v1 ino = nd := by
  rw [h.record, update_self]

theorem Born.of_put (hc : Consistent v) (h : Taken v ino v1) (fits : nd.Fits)
    (hblank : nd.owned.Blank) : Born v ino nd (putInode v1 ino nd) := by
  have heff := putInode_effect h.ready h.valid nd
  have hbits := putInode_bits (v := v1) h.valid nd
  refine ⟨heff.ready, h.env.trans heff.env, ?_, h.low, h.high, h.fresh, ?_, ?_, fun c hlive => ?_⟩
  · exact (h.consistent hc).putInode h.ready h.valid fits fun k => .inl (hblank k)
  · exact hbits.inodes.trans h.inodes
  · rw [table_putInode_of_fits v1 h.valid fits, h.table]
  · obtain ⟨hlive1, hdisk⟩ := h.live hlive
    exact ⟨(hbits.usedBlock c).trans hlive1.2.2, (putInode_disk h.ready h.valid hlive.1).trans hdisk⟩

theorem Taken.usedBlock_put (h : Taken v ino v1) (nd : Inode) (b : Nat) :
    usedBlock (putInode v1 ino nd) b = usedBlock v b := by
  rw [(putInode_bits h.valid nd).usedBlock]
  simp only [usedBlock, h.blocks]

theorem Born.of_saved (h : Taken v ino v0) (hs : Saved ino v0 blank v1 nd) (hblank : blank.Blank) :
    Born v ino nd v1 := by
  refine ⟨hs.ready, h.env.trans hs.env, hs.consistent, h.low, h.high, h.fresh,
    hs.inodes.trans h.inodes, by rw [hs.record, h.table], fun c hlive => ?_⟩
  obtain ⟨hlive0, hdisk⟩ := h.live hlive
  have hlow := hlive.1
  obtain ⟨hused, hsame⟩ := hs.others c hlive0 fun s => by rw [hblank.tree]; omega
  exact ⟨hused, hsame.trans hdisk⟩

section

variable (h : Born v ino nd v1) (hc : Consistent v)
include h hc

theorem Born.sameFile (hj : j ≠ ino) : SameFile v v1 j := by
  refine ⟨by rw [h.record, update_of_ne hj], fun hs m => ?_⟩
  have hheld := hc.held hs
  have htree : tree v1.disk (table v j) = tree v.disk (table v j) :=
    tree_congr fun p hp => (h.live _ (hheld.ptr_live hp)).2
  exact blockAt_congr (by rw [htree]) fun hne => (h.live _ (hheld.live hne)).2

theorem Born.parent_held (hat : CreateAt v path c) : Held v1 c.parentIno c.parent := by
  have hheld := hat.held hc
  by_cases hp : c.parentIno = ino
  · subst hp
    refine ⟨?_, hheld.fits⟩
    have hbooks : update (books v1) c.parentIno c.parent =
        update (books v) c.parentIno c.parent := by
      funext j
      by_cases hj : j = c.parentIno
      · subst hj
        rw [update_self, update_self]
      · simp only [books, h.record, update_of_ne hj]
    rw [hbooks]
    exact hheld.toHolds.of_live h.live h.consistent.reserved
  · have hself : table v1 c.parentIno = c.parent := by
      rw [h.record, update_of_ne hp, hat.parent]
    have hdir : inodeIsSpecial (table v1 c.parentIno) = false := by
      rw [hself]
      exact inodeIsSpecial_of_isDir hat.dir
    have := h.consistent.held hdir
    rwa [hself] at this

theorem Born.parent_blockAt (hat : CreateAt v path c) (m : Nat) :
    blockAt v1.disk c.parent m = blockAt v.disk c.parent m := by
  have hheld := hat.held hc
  have htree : tree v1.disk c.parent = tree v.disk c.parent :=
    tree_congr fun p hp => (h.live _ (hheld.ptr_live hp)).2
  exact blockAt_congr (by rw [htree]) fun hne => (h.live _ (hheld.live hne)).2

end

theorem newInode_blank (mode links now : Nat) : (newInode mode links now).Blank := fun _ => rfl

theorem newInode_fits {links : Nat} (hm : mode < 65536) (hl : links < 65536)
    (hn : now < 4294967296) : (newInode mode links now).Fits :=
  { zero_fits with mode := hm, linksCount := hl, atime := hn, mtime := hn, ctime := hn }

theorem Post.writable {body : M α} (hrefused : E .refused v) (hbody : Post body v Q E) :
    Post (do requireWritable; body) v Q E := by
  refine .seq (R := fun _ w => w = v) ?_
    fun _ w hw => hw ▸ hbody
  exact .bind_get (.guard hrefused fun _ => .ret rfl)

theorem resolveNewName_post (hv : Ready v) (path : Path) : Post (resolveNewName path) v
      (fun c v' => v' = v ∧ CreateAt v path c ∧ dirFindEntry v c.parent c.leaf = none)
      (fun e v' => e = .refused ∧ v' = v) := by
  refine .bind_ask (fun _ => ⟨rfl, rfl⟩) fun c hfound => ?_
  have hat := resolveCreatePath_eq_some hv hfound
  refine .bind_get (.guard ⟨rfl, rfl⟩ fun hfind =>
    Post.ret ⟨rfl, hat, by simpa using hfind⟩)

def Named (v : Vol) (c : CreatePath) (ino : Nat) (nd : Inode) (type : Nat) (v' : Vol)
    (parent' : Inode) : Prop :=
  ∃ v₁, Born v ino nd v₁ ∧ EntryAdded c.parentIno v₁ c.parent v' parent' c.leaf ino type

theorem EntryAdded.saved {name : Name} {child type : Nat} {nd1 : Inode}
    (h : EntryAdded ino v nd v1 nd1 name child type) :
    Saved ino v nd v1 nd1 ∧ SameKind nd nd1 ∧ nd.Sub nd1 := by
  obtain ⟨m, placed, ha⟩ := h.added
  exact ⟨ha.toSaved, ha.kind, ha.sub⟩

def Refused (v : Vol) (e : Fail) (v' : Vol) : Prop := (e = .refused ∨ e = .device) ∧ v' = v

def NoInode (v : Vol) (e : Fail) (v' : Vol) : Prop :=
  e = .noInode ∧ Idle v v' ∧ ∀ ino, 11 ≤ ino → ino ≤ 1024 → usedInode v ino = true

def CreateFails (v : Vol) (c : CreatePath) (e : Fail) (v' : Vol) : Prop :=
  Refused v e v' ∨ NoInode v e v' ∨
    ∃ ino v₁ v₂, Born v ino (newInode fileMode 1 v.now) v₁ ∧
      (∀ b, usedBlock v₁ b = usedBlock v b) ∧ EntryFails c.parentIno v₁ c.parent e v₂ ∧
      Dropped v₂ ino v'

theorem EntryFails.ready {e : Fail} (h : EntryFails ino v nd e v1) (hv : Ready v) : Ready v1 := by
  obtain ⟨_, rfl⟩ | ⟨_, hidle, _⟩ | ⟨⟨_, _, _, hg⟩, _⟩ := h
  · exact hv
  · exact hidle.ready
  · exact hg.ready

def Opened (v : Vol) (c : CreatePath) (r : Nat × Inode) (v' : Vol) : Prop :=
  (v' = v ∧ ValidIno r.1 ∧ r.2 = table v r.1 ∧ inodeIsFile r.2 = true ∧
      ∃ t, dirFindEntry v c.parent c.leaf = some (r.1, t)) ∨
    (dirFindEntry v c.parent c.leaf = none ∧ r.2 = newInode fileMode 1 v.now ∧
      ∃ parent', Named v c r.1 r.2 1 v' parent')

theorem createFileInParent_post (hv : Ready v) (hc : Consistent v) (hat : CreateAt v path c) :
    Post (createFileInParent c) v (Opened v c) (CreateFails v c) := by
  refine .bind_get ?_
  cases hfind : dirFindEntry v c.parent c.leaf with
  | some r =>
    obtain ⟨existing, type⟩ := r
    refine .bind_ask (fun _ => .inl ⟨.inr rfl, rfl⟩) fun nd hread => ?_
    obtain ⟨hi, rfl⟩ := readInode_eq_some hv hread
    exact .branch (fun hfile => .ret (.inl ⟨rfl, hi, rfl, hfile, type, hfind⟩))
      fun _ => .raise (.inl ⟨.inl rfl, rfl⟩)
  | none =>
    have hfits := newInode_fits (show fileMode < 65536 by decide) (show 1 < 65536 by decide) hv.clock
    refine .bind (allocInode_taken hv) (fun _ _ he => .inr (.inl he)) fun ino v0 ht => ?_
    refine .bind_run (writeInode_run ht.ready ht.valid _) ?_
    have hborn := Born.of_put hc ht hfits (Inode.Blank.owned (newInode_blank _ _ _))
    have hheld := hborn.parent_held hc hat
    refine .bind (R := fun _ w => ∃ parent', EntryAdded c.parentIno
        (putInode v0 ino (newInode fileMode 1 v.now)) c.parent w parent' c.leaf ino 1)
      (.rescue (F := EntryFails c.parentIno (putInode v0 ino (newInode fileMode 1 v.now)) c.parent)
        (.seq (dirAddEntry_post hat.short hborn.ready hheld hat.valid)
          fun parent' w hadd => .ret ⟨parent', hadd.2.2.2⟩) fun e w he => ?_)
      (fun _ _ he => he) ?_
    · refine .bind (freeInode_dropped (he.ready hborn.ready) ht.valid) (fun _ _ h => h.elim)
        fun _ w' hd => .raise (.inr (.inr ⟨ino, _, w, hborn, ht.usedBlock_put _, he, hd⟩))
    · rintro _ w ⟨parent', hadd⟩
      exact .ret (.inr ⟨hfind, rfl, parent', _, hborn, hadd⟩)

structure Rewritten (ino : Nat) (v : Vol) (nd : Inode) (v' : Vol) : Prop where
  ready : Ready v'
  env : SameEnv v v'
  consistent : Consistent v'
  bits : SameBits v v'
  record : table v' = update (table v) ino nd
  disk : ∀ c, 36 ≤ c → v'.disk c = v.disk c

theorem Rewritten.of_put (hv : Ready v) (hc : Consistent v) (hi : ValidIno ino) (fits : nd.Fits)
    (hsub : nd.owned.Sub (books v ino)) : Rewritten ino v nd (putInode v ino nd) := by
  have heff := putInode_effect hv hi nd
  exact ⟨heff.ready, heff.env, hc.putInode hv hi fits hsub, putInode_bits hi nd,
    table_putInode_of_fits v hi fits, fun _ => putInode_disk hv hi⟩

theorem Inode.owned_sub_of_eq {nd' : Inode} (hmode : nd'.mode = nd.mode)
    (hblock : nd'.block = nd.block) : nd'.owned.Sub nd.owned := by
  intro k
  have hspecial : inodeIsSpecial nd' = inodeIsSpecial nd := by simp only [inodeIsSpecial, hmode]
  simp only [owned, hspecial]
  split_ifs
  · exact .inl rfl
  · exact .inr (by rw [hblock])

/-! `mkdir`. -/

def dirInode (block now : Nat) : Inode :=
  { newInode dirMode 2 now with
    size := 4096, blocks512 := 8, block := update (fun _ => 0) 0 block }

theorem dirSkeleton_isSome (ino parent : Nat) : ∃ buf, dirSkeleton ino parent = some buf := by
  unfold dirSkeleton dirWriteEntry
  rw [if_neg (by decide)]
  simp only [bind_eq_bind, bind_some]
  rw [if_neg (by decide)]
  exact ⟨_, rfl⟩

theorem Born.directory (hc : Consistent v) (h : Taken v ino v0) {b : Nat} (hv : Ready v)
    (ha : Allocated v0 v1 b 1) (hzero : v1.disk b = zeros) (buf : Buf) :
    Born v ino (dirInode b v.now) (setBlock (putInode v1 ino (dirInode b v.now)) b buf) ∧
      ∀ m, blockAt (setBlock (putInode v1 ino (dirInode b v.now)) b buf).disk (dirInode b v.now) m =
        if m = 0 then some buf else none := by
  have hblank : ({ newInode dirMode 2 v.now with size := 4096 } : Inode).Blank := fun _ => rfl
  have hbfits : ({ newInode dirMode 2 v.now with size := 4096 } : Inode).Fits :=
    { newInode_fits (show dirMode < 65536 by decide) (show 2 < 65536 by decide) hv.clock with
      size := show 4096 < 4294967296 by decide }
  have hheld : Held v0 ino _ := (h.consistent hc).held_blank hblank hbfits
  obtain ⟨hgrow, htree⟩ := insertRoot_grow hheld (show 0 < 14 by decide) rfl ha fun _ => hzero
  have hfits : (dirInode b v.now).Fits := hgrow.held.fits
  have hsaved : Saved ino v0 _ (putInode v1 ino (dirInode b v.now)) (dirInode b v.now) :=
    hgrow.toTreeStep.saved h.valid rfl hfits
  have htree' : tree (putInode v1 ino (dirInode b v.now)).disk (dirInode b v.now) =
      update (fun _ => 0) (.root 0) b := by
    refine (tree_putInode hgrow.ready h.valid hgrow.held _).trans (htree.trans ?_)
    rw [funext (hblank.tree v0.disk)]
  have hlow := ha.low
  have heff := setBlock_effect hsaved.ready (show 4 ≤ b by omega) buf
  obtain ⟨hfill, hsame⟩ := Fill.of_data hsaved.held heff (setBlock_bits (show 4 ≤ b by omega) buf)
    (fun c hc => ⟨0, by rw [htree', hc]; exact update_self ..⟩) (fun c hc => by omega)
  have hfinal := hsaved.trans (hfill.toTreeStep.saved_of_record hsaved.table_self)
  refine ⟨Born.of_saved h hfinal hblank, fun m => ?_⟩
  have hslot : ∀ m, dataSlot m = .root 0 ↔ m = 0 := by
    intro m
    refine ⟨fun hm => ?_, fun hm => by rw [hm]; rfl⟩
    exact dataSlot_inj (hm.trans (show Slot.root 0 = dataSlot 0 from rfl))
  simp only [blockAt, hsame, htree']
  by_cases hm : m = 0
  · have hb : b ≠ 0 := by omega
    rw [(hslot m).mpr hm]
    simp only [update_self, hb, if_false, hm, if_true, setBlock_same]
  · rw [update_of_ne fun heq => hm ((hslot m).mp heq)]
    simp only [hm, if_true, if_false]

def MkdirDone (v : Vol) (path : Path) (v' : Vol) : Prop :=
  ∃ c ino b buf v₁ v₂ parent', CreateAt v path c ∧ dirFindEntry v c.parent c.leaf = none ∧
    Born v ino (dirInode b v.now) v₁ ∧ dirSkeleton ino c.parentIno = some buf ∧
    (∀ m, blockAt v₁.disk (dirInode b v.now) m = if m = 0 then some buf else none) ∧
    EntryAdded c.parentIno v₁ c.parent v₂ parent' c.leaf ino 2 ∧
    Rewritten c.parentIno v₂ parent'.link v'

/-- The ways in which `ext2_mkdir` fails: an inode or a block that was taken stays taken. -/
def MkdirFails (v : Vol) (path : Path) (e : Fail) (v' : Vol) : Prop :=
  Refused v e v' ∨ NoInode v e v' ∨
    (∃ ino v₀, Taken v ino v₀ ∧ e = .noBlock ∧ Idle v₀ v' ∧ Full v) ∨
    ∃ c ino b v₁, CreateAt v path c ∧ Born v ino (dirInode b v.now) v₁ ∧
      EntryFails c.parentIno v₁ c.parent e v'

theorem Inode.Fits.link (h : nd.Fits) : nd.link.Fits :=
  { h with linksCount := mod_lt _ (by decide) }

theorem Inode.Fits.unlink (h : nd.Fits) : nd.unlink.Fits :=
  { h with linksCount := lt_of_le_of_lt (sub_le _ _) h.linksCount }

theorem Rewritten.attributes (hv : Ready v) (hc : Consistent v) (hi : ValidIno ino) (fits : nd.Fits)
    (hmode : nd.mode = (table v ino).mode) (hblock : nd.block = (table v ino).block) :
    Rewritten ino v nd (putInode v ino nd) :=
  .of_put hv hc hi fits (owned_sub_of_eq hmode hblock)

theorem ext2Mkdir_post (hv : Ready v) (hc : Consistent v) (path : Path) :
    Post (ext2Mkdir path) v (fun _ => MkdirDone v path) (MkdirFails v path) := by
  refine Post.writable (.inl ⟨.inl rfl, rfl⟩) ?_
  refine Post.bind (resolveNewName_post hv path) (fun _ _ he => .inl ⟨.inl he.1, he.2⟩) ?_
  rintro c w ⟨rfl, hat, hnone⟩
  refine .bind (allocInode_taken hv) (fun _ _ he => .inr (.inl he)) fun ino v0 ht => ?_
  refine .bind (allocBlockWithZero_post ht.ready true) ?_ ?_
  · rintro e v' ⟨he, hidle, hfull⟩
    refine .inr (.inr (.inl ⟨ino, v0, ht, he, hidle, fun c h1 h2 => ?_⟩))
    have := hfull c h1 h2
    simpa only [usedBlock, ht.blocks] using this
  · rintro b v1 ⟨ha, hzero⟩
    have hnow : v1.now = w.now := (ht.env.trans ha.env).now
    have hhigh := ha.high
    obtain ⟨buf, hbuf⟩ := dirSkeleton_isSome ino c.parentIno
    obtain ⟨hborn, hcontents⟩ := Born.directory hc ht hv ha hzero buf
    refine .bind_get ?_
    rw [hnow]
    refine .bind_run (writeInode_run ha.ready ht.valid _) (.bind_run (query_run hbuf) ?_)
    refine .bind_run (writeBlock_run (putInode_effect ha.ready ht.valid _).ready (by omega) buf) ?_
    refine .bind (dirAddEntry_post hat.short hborn.ready (hborn.parent_held hc hat) hat.valid)
      (fun e v' he => .inr (.inr (.inr ⟨c, ino, b, _, hat, hborn, he⟩))) ?_
    rintro parent' v2 ⟨_, _, _, hadd⟩
    obtain ⟨hsaved, _, _⟩ := hadd.saved
    have hself := hsaved.table_self
    refine .of_run (writeInode_run hsaved.ready hat.valid _)
      ⟨c, ino, b, buf, _, v2, parent', hat, hnone, hborn, hbuf, hcontents, hadd, ?_⟩
    exact .attributes hsaved.ready hsaved.consistent hat.valid hsaved.held.fits.link
      (by rw [hself]; rfl) (by rw [hself]; rfl)

/-! `link`. -/

def LinkDone (v : Vol) (oldpath newpath : Path) (v' : Vol) : Prop :=
  ∃ old c v₁ parent', resolvePath v oldpath = some old ∧ inodeIsDir old.inode = false ∧
    old.inode.linksCount ≠ 65535 ∧ CreateAt v newpath c ∧ dirFindEntry v c.parent c.leaf = none ∧
    EntryAdded c.parentIno v c.parent v₁ parent' c.leaf old.ino (dirTypeForMode old.inode.mode) ∧
    Rewritten old.ino v₁ { old.inode.link with ctime := v.now } v'

def LinkFails (v : Vol) (newpath : Path) (e : Fail) (v' : Vol) : Prop :=
  Refused v e v' ∨ ∃ c, CreateAt v newpath c ∧ EntryFails c.parentIno v c.parent e v'

theorem ext2Link_post (hv : Ready v) (hc : Consistent v) (oldpath newpath : Path) :
    Post (ext2Link oldpath newpath) v (fun _ => LinkDone v oldpath newpath) (LinkFails v newpath) := by
  refine Post.writable (.inl ⟨.inl rfl, rfl⟩) ?_
  refine Post.bind_ask (fun _ => .inl ⟨.inl rfl, rfl⟩) fun old hold => ?_
  obtain ⟨hi, hrec, _⟩ := resolvePath_eq_some hv hold
  refine .guard (.inl ⟨.inl rfl, rfl⟩) fun hdir => ?_
  have hdir : inodeIsDir old.inode = false := by simpa using hdir
  refine .bind (resolveNewName_post hv newpath) (fun _ _ he => .inl ⟨.inl he.1, he.2⟩) ?_
  rintro c w' ⟨rfl, hat, hnone⟩
  refine .guard (.inl ⟨.inl rfl, rfl⟩) fun hcount => ?_
  refine .bind (dirAddEntry_post hat.short hv (hat.held hc) hat.valid)
    (fun e v' he => .inr ⟨c, hat, he⟩) ?_
  rintro parent' v1 ⟨_, _, _, hadd⟩
  obtain ⟨hsaved, _, _⟩ := hadd.saved
  -- the linked inode is no directory, so it is not the parent
  have hne : old.ino ≠ c.parentIno := by
    intro heq
    have := hat.dir
    rw [hat.parent, ← heq, ← hrec, hdir] at this
    cases this
  have hself : table v1 old.ino = old.inode := by
    rw [hsaved.record, update_of_ne hne, hrec]
  have hnow : v1.now = w'.now := hsaved.env.now
  have hfits : old.inode.Fits := hrec ▸ table_fits w' old.ino
  refine .bind_get ?_
  rw [hnow]
  refine .of_run (writeInode_run hsaved.ready hi _)
    ⟨old, c, v1, parent', hold, hdir, hcount, hat, hnone, hadd, ?_⟩
  exact .attributes hsaved.ready hsaved.consistent hi { hfits.link with ctime := hv.clock }
    (by rw [hself]; rfl) (by rw [hself]; rfl)

/-! `mknod`. -/

def nodeInode (mode rdev now : Nat) : Inode :=
  { newInode mode 1 now with block := update (fun _ => 0) 0 rdev }

def OwnsNothing (mode rdev : Nat) : Prop := fileType mode ≠ 0x8000 ∨ rdev = 0

theorem nodeInode_fits (hm : mode < 65536) (hr : rdev < 4294967296)
    (hn : now < 4294967296) : (nodeInode mode rdev now).Fits := by
  refine { newInode_fits hm (show 1 < 65536 by decide) hn with block := fun k => ?_, blockEnd := ?_ }
  · by_cases hk : k = 0
    · subst hk
      simpa only [nodeInode, update_self] using hr
    · simp only [nodeInode, update_of_ne hk]
      decide
  · intro k hk
    simp only [nodeInode]
    rw [update_of_ne (by omega)]

theorem nodeInode_blank (htype : mknodType mode = true)
    (h : OwnsNothing mode rdev) (now : Nat) : (nodeInode mode rdev now).owned.Blank := by
  by_cases hs : inodeIsSpecial (nodeInode mode rdev now) = true
  · simp only [owned, hs, if_true]
    exact fun _ => rfl
  · have hfile : fileType mode = 0x8000 := by
      have hmode : (nodeInode mode rdev now).mode = mode := rfl
      simp only [inodeIsSpecial, hmode] at hs
      simp only [mknodType] at htype
      simpa [hs] using htype
    obtain rfl : rdev = 0 := h.resolve_left fun hne => hne hfile
    refine Inode.Blank.owned fun k => ?_
    simp only [nodeInode, update_eq_self]

def MknodDone (v : Vol) (path : Path) (mode rdev : Nat) (v' : Vol) : Prop :=
  ∃ c ino parent', mknodType mode = true ∧ CreateAt v path c ∧
    dirFindEntry v c.parent c.leaf = none ∧
    Named v c ino (nodeInode mode rdev v.now) (dirTypeForMode mode) v' parent'

def Undone (v : Vol) (c : CreatePath) (nd : Inode) (e : Fail) (v' : Vol) : Prop :=
  ∃ ino v₁ v₂, Born v ino nd v₁ ∧ (∀ b, usedBlock v₁ b = usedBlock v b) ∧
    EntryFails c.parentIno v₁ c.parent e v₂ ∧ Dropped (putInode v₂ ino Inode.zero) ino v'

def MknodFails (v : Vol) (path : Path) (mode rdev : Nat) (e : Fail) (v' : Vol) : Prop :=
  Refused v e v' ∨ NoInode v e v' ∨
    ∃ c, CreateAt v path c ∧ Undone v c (nodeInode mode rdev v.now) e v'

theorem dropInode_post (hv : Ready v) (hi : ValidIno ino) (e : Fail) :
    Post (dropInode ino e : M α) v Q
      (fun e' v' => e' = e ∧ Dropped (putInode v ino Inode.zero) ino v') := by
  refine .bind_run (rescue_run (writeInode_run hv hi _)) ?_
  exact .bind (freeInode_dropped (putInode_effect hv hi _).ready hi) (fun _ _ h => h.elim)
    fun _ _ hd => .raise ⟨rfl, hd⟩

theorem dropInode_raises (e : Fail) (hE : ∀ e v', E e v') : Post (dropInode ino e : M α) v Q E :=
  .bind (.any _ _) (fun e v' _ => hE e v') fun _ _ _ =>
    .bind (.any _ _) (fun e v' _ => hE e v') fun _ _ _ => .raise (hE _ _)

theorem ext2Mknod_post (hv : Ready v) (hc : Consistent v) (path : Path)
    (hmode : mode < 65536) (hrdev : rdev < 4294967296) (hown : OwnsNothing mode rdev) :
    Post (ext2Mknod path mode rdev) v (fun _ => MknodDone v path mode rdev)
      (MknodFails v path mode rdev) := by
  refine Post.writable (.inl ⟨.inl rfl, rfl⟩) (Post.branch
    (fun _ => .raise (.inl ⟨.inl rfl, rfl⟩)) fun htype => ?_)
  have htype : mknodType mode = true := by simpa using htype
  refine .bind (resolveNewName_post hv path) (fun _ _ he => .inl ⟨.inl he.1, he.2⟩) ?_
  rintro c w ⟨rfl, hat, hnone⟩
  refine .bind (allocInode_taken hv) (fun _ _ he => .inr (.inl he)) fun ino v0 ht => ?_
  have hnow : v0.now = w.now := ht.env.now
  refine .bind_get ?_
  rw [hnow]
  have hborn := Born.of_put hc ht (nodeInode_fits hmode hrdev hv.clock)
    (nodeInode_blank htype hown w.now)
  refine .bind_run (rescue_run (writeInode_run ht.ready ht.valid _)) ?_
  refine .rescue (.seq (dirAddEntry_post hat.short hborn.ready (hborn.parent_held hc hat)
    hat.valid) ?_) fun e v2 he => ?_
  · rintro parent' v' ⟨_, _, _, hadd⟩
    exact .ret ⟨c, ino, parent', htype, hat, hnone, _, hborn, hadd⟩
  · refine (dropInode_post (he.ready hborn.ready) ht.valid e).mono (fun _ _ h => h) ?_
    rintro e' v' ⟨rfl, hd⟩
    exact .inr (.inr ⟨c, hat, ino, _, v2, hborn, ht.usedBlock_put _, he, hd⟩)

/-! `symlink`. -/

def SymlinkDone (v : Vol) (target linkpath : Path) (v' : Vol) : Prop :=
  ∃ c ino nd v₁ parent', CreateAt v linkpath c ∧ dirFindEntry v c.parent c.leaf = none ∧
    Born v ino nd v₁ ∧ nd.mode = linkMode ∧ nd.linksCount = 1 ∧ nd.size = target.length ∧
    (∀ q, fileByte v₁.disk nd q = target.getD q 0) ∧
    EntryAdded c.parentIno v₁ c.parent v' parent' c.leaf ino 7

def SymlinkFails (v : Vol) (linkpath : Path) (e : Fail) (v' : Vol) : Prop :=
  Refused v e v' ∨ NoInode v e v' ∨
    (∃ ino v₁ v₂, Born v ino (newInode linkMode 1 v.now) v₁ ∧
      (∀ b, usedBlock v₁ b = usedBlock v b) ∧ e = .noBlock ∧ Idle v₁ v₂ ∧ Full v₁ ∧
      Dropped (putInode v₂ ino Inode.zero) ino v') ∨
    ∃ c, CreateAt v linkpath c ∧ (¬HasHole v.disk c.parent (dirBlocks c.parent) →
      ∃ ino nd v₁ v₂ v₃ nd', Born v ino nd v₁ ∧ Idle v₁ v₂ ∧ Saved ino v₂ nd v₃ nd' ∧
        (∀ b, usedBlock v₃ b = usedBlock v b) ∧ Dropped (putInode v₃ ino Inode.zero) ino v')

theorem tree_of_first {d : Nat → Buf} (h : ∀ k, k ≠ 0 → nd.block k = 0) (s : Slot) :
    tree d nd s = if s = .root 0 then nd.block 0 else 0 := by
  cases s with
  | root k =>
    by_cases hk : k = 0
    · subst hk
      simp only [tree, if_true, zero_lt_succ]
    · have hslot : Slot.root k ≠ .root 0 := fun heq => hk (Slot.root.inj heq)
      simp only [tree, hslot, if_false, h k hk, ite_self]
  | entry p i => rw [tree_entry_zero (h _ (by cases p <;> simp [Ptr.root])), if_neg (by simp)]

theorem Idle.endDefer (h : Idle (beginDefer v) v1) : Idle v (endDefer v1) := by
  have hbits := endDefer_bits h.ready
  refine ⟨⟨endDefer_ready h.ready, h.env.endDefer, fun c hc hf => ?_⟩, ?_⟩
  · exact (endDefer_disk v1 hc).trans (h.disk c hc hf)
  · exact ⟨hbits.blocks.trans h.blocks, hbits.inodes.trans h.inodes⟩

theorem writeTarget_post (hv : Ready v) (h : Held v ino blank) (hi : ValidIno ino)
    (hblank : blank.Blank) {data : List UInt8} (hpos : 0 < data.length) (hlen : data.length ≤ 255) :
    Post (writeFileRange ino blank 0 data) v
      (fun nd v' => Saved ino v blank v' nd ∧ SameKind blank nd ∧
        nd.size = max blank.size data.length ∧ (∀ q, fileByte v'.disk nd q = data.getD q 0) ∧
        ∃ b, usedBlock v b = false ∧ (∀ s, tree v'.disk nd s = if s = .root 0 then b else 0) ∧
          ∀ c, usedBlock v' c = (decide (c = b) || usedBlock v c))
      (fun e v' => e = .noBlock ∧ Idle v v' ∧ Full v) := by
  have hone := writeInBlock_post hv h hi hpos (show 0 % 4096 + data.length ≤ 4096 by omega)
    (by omega) (by unfold maxLogical; omega)
    (getDirectBlock_post (beginDefer_ready hv) blank (by omega) true)
    (fun e w he => ⟨he.2.1.ready, he.2.1.env⟩)
  have hwrite := writeFileRange_post hv h hi (show 0 + data.length < 4294967296 by omega)
  refine (hwrite.and hone).mono ?_ ?_
  · rintro nd v' ⟨⟨hsaved, hkind, hsize, hbytes, _⟩, ⟨nd1, b⟩, w, hgot, hblock, hused⟩
    obtain ⟨hblock1, ha⟩ := hgot (hblank _)
    have hfirst : ∀ k, nd.block k = if k = 0 then b else 0 := by
      intro k
      rw [hblock, hblock1]
      by_cases hk : k = 0
      · subst hk
        simp only [update_self, if_true]
      · rw [update_of_ne hk, if_neg hk]
        exact hblank k
    refine ⟨hsaved, hkind, by rw [hsize, Nat.zero_add], fun q => ?_, b,
      ha.free b (le_refl b) (lt_succ_self b), fun s => ?_, fun c => ?_⟩
    · rw [hbytes q, Nat.zero_add]
      split_ifs with hq
      · rw [Nat.sub_zero]
      · rw [fileByte_of_hole (hblank.tree v.disk _), List.getD_eq_default _ _ (by omega)]
    · rw [tree_of_first (fun k hk => by rw [hfirst, if_neg hk]), hfirst 0, if_pos rfl]
    · rw [hused, ha.used]
      congr 1
      exact decide_eq_decide.mpr (by omega)
  · rintro e v' ⟨_, w, ⟨he, hidle, hfull⟩, rfl⟩
    exact ⟨he, hidle.endDefer, hfull⟩

theorem ext2Symlink_post (hv : Ready v) (hc : Consistent v) (target linkpath : Path) :
    Post (ext2Symlink target linkpath) v (fun _ => SymlinkDone v target linkpath)
      (SymlinkFails v linkpath) := by
  refine Post.writable (.inl ⟨.inl rfl, rfl⟩) (Post.branch
    (fun _ => .raise (.inl ⟨.inl rfl, rfl⟩)) fun hlen => ?_)
  refine Post.bind (resolveNewName_post hv linkpath) (fun _ _ he => .inl ⟨.inl he.1, he.2⟩) ?_
  rintro c w ⟨rfl, hat, hnone⟩
  refine .bind (allocInode_taken hv) (fun _ _ he => .inr (.inl he)) fun ino v0 ht => ?_
  have hnow : v0.now = w.now := ht.env.now
  refine .bind_get ?_
  rw [hnow]
  have hblank := newInode_blank linkMode 1 w.now
  have hfits := newInode_fits (show linkMode < 65536 by decide) (show 1 < 65536 by decide) hv.clock
  have hstart : Held v0 ino _ := (ht.consistent hc).held_blank hblank hfits
  have hfirst := (TreeStep.refl ht.ready hstart).saved ht.valid rfl hfits
  have hborn0 := Born.of_saved ht hfirst hblank
  refine .bind_run (rescue_run (writeInode_run ht.ready ht.valid _)) ?_
  refine .seq (.rescue (E := SymlinkFails w linkpath)
    (writeTarget_post hfirst.ready hfirst.held ht.valid hblank (by omega) (by omega)) ?_) ?_
  · rintro e v2 ⟨he, hidle, hfull⟩
    refine (dropInode_post hidle.ready ht.valid e).mono (fun _ _ h => h) ?_
    rintro e' v' ⟨rfl, hd⟩
    exact .inr (.inr (.inl ⟨ino, _, v2, hborn0, ht.usedBlock_put _, he, hidle, hfull, hd⟩))
  · rintro nd v1 ⟨hsaved, hkind, hsize, hbytes, b, hfree, htree, hused⟩
    have hborn := Born.of_saved ht (hfirst.trans hsaved) hblank
    refine .rescue (.seq (dirAddEntry_post hat.short hborn.ready
      (hborn.parent_held hc hat) hat.valid) ?_) fun e v2 he => ?_
    · rintro parent' v' ⟨_, _, _, hadd⟩
      exact .ret ⟨c, ino, nd, v1, parent', hat, hnone, hborn, hkind.mode, hkind.linksCount,
        hsize.trans (Nat.zero_max _), hbytes, hadd⟩
    · by_cases hhole : HasHole w.disk c.parent (dirBlocks c.parent)
      · have hany : ∀ e v', SymlinkFails w linkpath e v' :=
          fun _ _ => .inr (.inr (.inr ⟨c, hat, fun h => absurd hhole h⟩))
        exact .bind (.any _ _) (fun e v' _ => hany e v') fun _ _ _ => dropInode_raises e hany
      · have hidle : Idle v1 v2 := by
          obtain ⟨_, rfl⟩ | ⟨_, hidle, _⟩ | ⟨_, m, hm, hnone⟩ := he
          · exact Idle.refl hborn.ready
          · exact hidle
          · rw [hborn.parent_blockAt hc hat] at hnone
            exact absurd ⟨m, hm, hnone⟩ hhole
        have hheld := hsaved.held.transfer hidle.toEffect hidle.blocks
        refine .bind (R := fun _ v3 => ∃ nd', Saved ino v2 nd v3 nd' ∧ ∀ d, usedBlock v3 d = true ↔
              usedBlock v2 d = true ∧ ¬(d ≠ 0 ∧ ∃ s, tree v2.disk nd s = d))
          (F := fun _ _ => False) (.rescue (F := fun _ _ => False)
          (.seq (truncateFile_post hidle.ready hheld ht.valid)
            fun nd' v3 h => .ret ⟨nd', h.1, h.2.2.2.2⟩) fun _ _ h => h.elim)
          (fun _ _ h => h.elim) ?_
        rintro _ v3 ⟨nd', htrunc, hused3⟩
        refine (dropInode_post htrunc.ready ht.valid e).mono (fun _ _ h => h) ?_
        rintro e' v' ⟨rfl, hd⟩
        refine .inr (.inr (.inr ⟨c, hat, fun _ => ⟨ino, nd, v1, v2, v3, nd', hborn, hidle, htrunc,
          fun d => ?_, hd⟩⟩))
        have htree2 : tree v2.disk nd = tree v1.disk nd :=
          tree_congr fun p hp => hidle.disk _ (le_trans (by decide) (hsaved.held.ptr_ge hp)) id
        have hput := ht.usedBlock_put (newInode linkMode 1 w.now)
        rw [hput] at hfree
        have hb : b ≠ 0 := by
          rintro rfl
          rw [hc.reserved 0 (by omega)] at hfree
          cases hfree
        rw [Bool.eq_iff_iff, hused3, hidle.usedBlock, hused, hput, htree2]
        by_cases hd : d = b
        · subst hd
          simp only [hb, hfree, ne_eq, not_false_eq_true, true_and, Bool.false_eq_true, iff_false]
          exact fun hno => hno.2 ⟨.root 0, by rw [htree, if_pos rfl]⟩
        · have hno : ¬∃ s, d ≠ 0 ∧ tree v1.disk nd s = d := by
            rintro ⟨s, h0, hs⟩
            rw [htree] at hs
            split_ifs at hs with hroot
            · exact hd hs.symm
            · exact h0 hs.symm
          simp only [hd, decide_false, Bool.false_or, and_iff_left_iff_imp]
          exact fun _ ⟨h0, s, hs⟩ => hno ⟨s, h0, hs⟩

end

end SmallOS.Ext2
