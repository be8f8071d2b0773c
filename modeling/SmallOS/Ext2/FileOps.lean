import SmallOS.Ext2.Contents

/-! The file operations up to the write-back of the inode. `Saved` is the guarantee of an operation
on one file to the rest of the volume. -/

namespace SmallOS.Ext2

open Bytes Prog Ownership Function List Inode

variable {e : Fail} {data : List UInt8} {hi lo logical offset : Nat} {d : Nat → Buf}

section

variable {ino : Nat} {v v1 v2 : Vol} {nd nd1 nd2 : Inode}

theorem Held.beginDefer (h : Held v ino nd) : Held (beginDefer v) ino nd :=
  ⟨⟨⟨h.owns.live, h.owns.inj⟩, h.reserved⟩, h.fits⟩

theorem Held.endDefer (hv : Ready v) (h : Held v ino nd) : Held (endDefer v) ino nd := by
  have hbooks : books (Ext2.endDefer v) = books v := books_congr fun c hc _ => endDefer_disk v hc
  refine ⟨?_, h.fits⟩
  rw [hbooks]
  exact h.toHolds.transfer (fun c hc => endDefer_disk v (by omega)) (endDefer_bits hv).usedBlock

theorem tree_endDefer (h : Held v ino nd) : tree (endDefer v).disk nd = tree v.disk nd :=
  tree_congr fun _ hp => endDefer_disk v (le_trans (by decide) (h.ptr_ge hp))

theorem fileByte_endDefer (h : Held v ino nd) (pos : Nat) :
    fileByte (endDefer v).disk nd pos = fileByte v.disk nd pos :=
  fileByte_congr (by rw [tree_endDefer h]) fun hne =>
    endDefer_disk v (by have := (h.live hne).1; omega)

theorem TreeStep.endDefer (h : TreeStep ino (beginDefer v) nd v1 nd1) :
    TreeStep ino v nd (endDefer v1) nd1 := by
  have hbits := endDefer_bits h.ready
  have htree := tree_endDefer h.held
  refine ⟨⟨fun c hc hno => ?_, fun s hs => ?_⟩, endDefer_ready h.ready, h.env.endDefer,
    hbits.inodes.trans h.inodes,
    fun c h1 h2 => (endDefer_disk v1 h1).trans (h.records c h1 h2), h.held.endDefer h.ready⟩
  · obtain ⟨hused, hdisk⟩ := h.others c hc hno
    exact ⟨(hbits.usedBlock c).trans hused, (endDefer_disk v1 (by have := hc.1; omega)).trans hdisk⟩
  · rw [htree] at hs ⊢
    exact h.origin s hs

theorem Fill.endDefer (h : Fill ino (beginDefer v) nd v1 nd1) :
    Fill ino v nd (endDefer v1) nd1 := by
  refine ⟨h.toTreeStep.endDefer, fun s hs => ?_, fun c hc => ?_, h.sub, h.attrs⟩
  · rw [tree_endDefer h.held]
    exact h.keep s hs
  · rw [(endDefer_bits h.ready).usedBlock]
    exact h.used c hc

structure Saved (ino : Nat) (v : Vol) (nd : Inode) (v' : Vol) (nd' : Inode) : Prop
    extends Frame v (tree v.disk nd) v' (tree v'.disk nd') where
  ready : Ready v'
  env : SameEnv v v'
  inodes : inodeBits v' = inodeBits v
  held : Held v' ino nd'
  record : table v' = update (table v) ino nd'

theorem Saved.table_self (h : Saved ino v nd v1 nd1) : table v1 ino = nd1 := by
  rw [h.record, update_self]

theorem Saved.consistent (h : Saved ino v nd v1 nd1) : Consistent v1 := by
  have := h.held
  rw [← h.table_self] at this
  exact this.consistent

theorem Saved.refl (hv : Ready v) (h : Held v ino (table v ino)) :
    Saved ino v (table v ino) v (table v ino) :=
  ⟨Frame.refl v _, hv, SameEnv.refl v, rfl, h, (update_eq_self ino (table v)).symm⟩

theorem Saved.trans (h : Saved ino v nd v1 nd1) (k : Saved ino v1 nd1 v2 nd2) :
    Saved ino v nd v2 nd2 :=
  ⟨h.toFrame.trans k.toFrame fun _ hs => k.held.live hs, k.ready, h.env.trans k.env,
    k.inodes.trans h.inodes, k.held, by rw [k.record, h.record, update_idem]⟩

theorem tree_of_block_eq (h : nd1.block = nd.block) : tree d nd1 = tree d nd := by
  funext s
  cases s with
  | root k => simp only [tree, h]
  | entry p i => cases p <;> simp only [tree, ptr, h]

theorem fileByte_of_block_eq (h : nd1.block = nd.block) (pos : Nat) :
    fileByte d nd1 pos = fileByte d nd pos := by
  simp only [fileByte, tree_of_block_eq h]

theorem putInode_disk (hv : Ready v) (hi : ValidIno ino) {c : Nat} (hc : 36 ≤ c) :
    (putInode v ino nd).disk c = v.disk c :=
  (putInode_effect hv hi nd).disk c (by omega) (by omega)

theorem tree_putInode (hv : Ready v) (hi : ValidIno ino) (h : Held v ino nd) (nd' : Inode) :
    tree (putInode v ino nd').disk nd = tree v.disk nd :=
  tree_congr fun _ hp => putInode_disk hv hi (h.ptr_ge hp)

theorem fileByte_putInode (hv : Ready v) (hi : ValidIno ino) (h : Held v ino nd) (nd' : Inode)
    (pos : Nat) : fileByte (putInode v ino nd').disk nd pos = fileByte v.disk nd pos :=
  fileByte_congr (by rw [tree_putInode hv hi h]) fun hne => putInode_disk hv hi (h.live hne).1

theorem TreeStep.saved {nd' : Inode} (h : TreeStep ino v nd v1 nd1) (hi : ValidIno ino)
    (hblock : nd'.block = nd1.block) (fits : nd'.Fits) :
    Saved ino v nd (putInode v1 ino nd') nd' := by
  have hsub : nd'.Sub nd1 := fun k => .inr (congrFun hblock k)
  have hheld := h.held.sub hsub fits
  have heff := putInode_effect h.ready hi nd'
  have hbits := putInode_bits (v := v1) hi nd'
  have htree : tree (putInode v1 ino nd').disk nd' = tree v1.disk nd1 :=
    (tree_putInode h.ready hi hheld nd').trans (tree_of_block_eq hblock)
  refine ⟨⟨fun c hc hno => ?_, fun s hs => ?_⟩, heff.ready, h.env.trans heff.env,
    hbits.inodes.trans h.inodes, hheld.putInode h.ready hi fits,
    by rw [table_putInode_of_fits v1 hi fits, h.table]⟩
  · obtain ⟨hused, hdisk⟩ := h.others c hc hno
    exact ⟨(hbits.usedBlock c).trans hused, (putInode_disk h.ready hi hc.1).trans hdisk⟩
  · rw [htree] at hs ⊢
    exact h.origin s hs

theorem TreeStep.saved_of_record (h : TreeStep ino v nd v1 nd1) (hrec : Ext2.table v ino = nd1) :
    Saved ino v nd v1 nd1 :=
  ⟨h.toFrame, h.ready, h.env, h.inodes, h.held, by rw [h.table, ← hrec, update_eq_self]⟩

structure SameKind (nd nd' : Inode) : Prop where
  mode : nd'.mode = nd.mode
  uid : nd'.uid = nd.uid
  gid : nd'.gid = nd.gid
  linksCount : nd'.linksCount = nd.linksCount

theorem SameKind.refl (nd : Inode) : SameKind nd nd := ⟨rfl, rfl, rfl, rfl⟩

theorem SameKind.trans (h : SameKind nd nd1) (k : SameKind nd1 nd2) : SameKind nd nd2 :=
  ⟨k.mode.trans h.mode, k.uid.trans h.uid, k.gid.trans h.gid, k.linksCount.trans h.linksCount⟩

theorem SameAttrs.size (h : SameAttrs nd nd1) : nd1.size = nd.size := by rw [h]

theorem SameAttrs.sameKind (h : SameAttrs nd nd1) : SameKind nd nd1 := by
  rw [h]
  exact ⟨rfl, rfl, rfl, rfl⟩

def Inode.resized (nd : Inode) (size now : Nat) : Inode := ({ nd with size := size } : Inode).touch now

theorem Inode.Fits.resized {nd : Inode} (h : nd.Fits) {size now : Nat} (hs : size < 4294967296)
    (hn : now < 4294967296) : (nd.resized size now).Fits :=
  { h with size := hs, mtime := hn, ctime := hn }

theorem Inode.resized_sameKind (nd : Inode) (size now : Nat) : SameKind nd (nd.resized size now) :=
  ⟨rfl, rfl, rfl, rfl⟩

theorem saveResized (h : TreeStep ino v nd v1 nd1) (hi : ValidIno ino) {size : Nat}
    (hs : size < 4294967296) :
    writeInode ino (nd1.resized size v1.now) v1 = .ok () (putInode v1 ino (nd1.resized size v1.now)) ∧
      Saved ino v nd (putInode v1 ino (nd1.resized size v1.now)) (nd1.resized size v1.now) ∧
      ∀ q, fileByte (putInode v1 ino (nd1.resized size v1.now)).disk (nd1.resized size v1.now) q =
        fileByte v1.disk nd1 q := by
  have hfits := h.held.fits.resized hs h.ready.clock
  refine ⟨writeInode_run h.ready hi _, h.saved hi rfl hfits, fun q => ?_⟩
  rw [fileByte_of_block_eq (show (nd1.resized size v1.now).block = nd1.block from rfl)]
  exact fileByte_putInode h.ready hi h.held _ q

def RangeFails (ino lo hi : Nat) (v : Vol) (nd : Inode) (e : Fail) (v' : Vol) : Prop :=
  e = .noBlock ∧ ((∃ nd', Fill ino v nd v' nd') ∨
    ∃ v₁ nd₁ logical w, Fill ino (beginDefer v) nd v₁ nd₁ ∧ lo ≤ logical ∧ logical < hi ∧
      Whole v₁.disk nd₁ lo logical ∧ Stale v₁ nd₁ logical w ∧ v' = endDefer w)

theorem Stale.ready (h : Stale v nd logical v1) : Ready v1 := by
  obtain ⟨_, _, _, _, _, _, _, hi⟩ := h
  exact hi.ready

theorem Stale.env (h : Stale v nd logical v1) : SameEnv v v1 := by
  obtain ⟨_, _, _, w, b, ha, _, hi⟩ := h
  have hput : SameEnv w (putEntry w (nd.block 13) ((logical - 12 - 1024) / 1024) b) :=
    ⟨rfl, rfl, rfl, rfl, rfl, rfl, rfl⟩
  exact (ha.env.trans hput).trans hi.env

theorem WriteFails.keeps (h : WriteFails ino lo hi v nd e v1) : Ready v1 ∧ SameEnv v v1 := by
  obtain ⟨_, ⟨_, hfill⟩ | ⟨_, _, _, hfill, _, _, _, hstale⟩⟩ := h
  · exact ⟨hfill.ready, hfill.env⟩
  · exact ⟨hstale.ready, hfill.env.trans hstale.env⟩

theorem writeFileRange_post (hv : Ready v) (h : Held v ino nd) (hi : ValidIno ino)
    (hend : offset + data.length < 4294967296) : Post (writeFileRange ino nd offset data) v
      (fun nd' v' => Saved ino v nd v' nd' ∧ SameKind nd nd' ∧
        nd'.size = max nd.size (offset + data.length) ∧ (∀ q, fileByte v'.disk nd' q =
          if offset ≤ q ∧ q < offset + data.length then data.getD (q - offset) 0
          else fileByte v.disk nd q) ∧
        (Solid v.disk nd (offset / 4096) → Solid v'.disk nd' ((offset + data.length) / 4096)))
      (RangeFails ino (offset / 4096) ((offset + data.length + 4095) / 4096) v nd) := by
  have hloop : Post (deferred (writeLoop offset data.length (ofList data) data.length 0 nd)) v
      (fun nd1 v1 => Fill ino v nd v1 nd1 ∧ (∀ q, fileByte v1.disk nd1 q =
        if offset ≤ q ∧ q < offset + data.length then data.getD (q - offset) 0
        else fileByte v.disk nd q) ∧
        (Solid v.disk nd (offset / 4096) → Solid v1.disk nd1 ((offset + data.length) / 4096)))
      (RangeFails ino (offset / 4096) ((offset + data.length + 4095) / 4096) v nd) := by
    refine Post.deferred ((writeLoop_post (beginDefer_ready hv) h.beginDefer (by omega) (by omega)
      (by omega)).mono ?_ ?_)
    · rintro nd1 v1 ⟨hfill, hwhole, hbytes⟩
      refine ⟨hfill.ready, hfill.env, hfill.endDefer, fun q => ?_, fun hs => ?_⟩
      · rw [fileByte_endDefer hfill.held, hbytes]
        rfl
      · unfold Solid Whole
        rw [tree_endDefer hfill.held]
        exact hfill.solid hs hwhole (by omega)
    · rintro e v1 ⟨⟨he, ⟨nd', hfill⟩ | ⟨w, nd1, logical, hfill, hlo, hhi, hwhole, hstale⟩⟩, _⟩
      · exact ⟨hfill.ready, hfill.env, he, .inl ⟨nd', hfill.endDefer⟩⟩
      · exact ⟨hstale.ready, hfill.env.trans hstale.env, he,
          .inr ⟨w, nd1, logical, v1, hfill, hlo, hhi, hwhole, hstale, rfl⟩⟩
  refine .seq hloop ?_
  rintro nd1 v1 ⟨hfill, hbytes, hsolid⟩
  have hmax : (if nd1.size < offset + data.length then offset + data.length else nd1.size) =
      max nd.size (offset + data.length) := by
    rw [hfill.attrs.size]
    split_ifs <;> omega
  have hlt : max nd.size (offset + data.length) < 4294967296 := by have := h.fits.size; omega
  obtain ⟨hrun, hsaved, hsame⟩ := saveResized hfill.toTreeStep hi hlt
  refine .bind_get ?_
  rw [hmax]
  refine .bind_run hrun (.ret ⟨hsaved, ?_, rfl, fun q => (hsame q).trans (hbytes q),
    fun hs => ?_⟩)
  · exact hfill.attrs.sameKind.trans (resized_sameKind ..)
  · show Solid _ (nd1.resized (max nd.size (offset + data.length)) v1.now) _
    unfold Solid Whole
    rw [tree_of_block_eq (show (nd1.resized _ _).block = nd1.block from rfl),
      tree_putInode hfill.ready hi hfill.held]
    exact hsolid hs

theorem writeInBlock_post {R : Inode × Nat → Vol → Prop} {F : Fail → Vol → Prop} (hv : Ready v)
    (h : Held v ino nd) (hi : ValidIno ino)
    (hpos : 0 < data.length) (hin : offset % 4096 + data.length ≤ 4096)
    (hpart : data.length < 4096) (hmax : offset / 4096 < maxLogical)
    (hget : Post (inodeGetDataBlock nd (offset / 4096)) (beginDefer v) R F)
    (hF : ∀ e w, F e w → Ready w ∧ SameEnv (beginDefer v) w) :
    Post (writeFileRange ino nd offset data) v
      (fun nd' v' => ∃ r w, R r w ∧ nd'.block = r.1.block ∧ ∀ c, usedBlock v' c = usedBlock w c)
      (fun e v' => ∃ w, F e w ∧ v' = endDefer w) := by
  refine .bind (R := fun nd1 v1 => TreeStep ino v nd v1 nd1 ∧
      ∃ b w, R (nd1, b) w ∧ ∀ c, usedBlock v1 c = usedBlock w c) (Post.deferred ?_)
    (fun _ _ he => he) ?_
  · obtain ⟨n, hn⟩ : ∃ n, data.length = n + 1 := ⟨data.length - 1, by omega⟩
    have hchunk : ¬((offset + 0) % 4096 = 0 ∧ 4096 ≤ data.length - 0) := by omega
    have hmin : min (4096 - offset % 4096) data.length = data.length := by omega
    rw [hn]
    unfold writeLoop
    rw [← hn, if_pos hpos]
    unfold writeChunk
    rw [if_neg hchunk]
    simp only [Nat.add_zero, Nat.sub_zero, hmin]
    refine .bind (R := fun r w' => r.2 = data.length ∧ TreeStep ino (beginDefer v) nd w' r.1 ∧
        ∃ b w, R (r.1, b) w ∧ ∀ c, usedBlock w' c = usedBlock w c) (F := F) ?_
      (fun e w he => ⟨(hF e w he).1, (hF e w he).2, w, he, rfl⟩) ?_
    · have hgot := (inodeGetDataBlockEx_post (beginDefer_ready hv) h.beginDefer hmax true).and hget
      refine .bind hgot (fun _ _ he => he.2) ?_
      rintro ⟨nd1, b⟩ v1 ⟨(hm : Maps ino (beginDefer v) nd v1 nd1 (offset / 4096) b true), hR⟩
      have hlow := hm.low
      have hb : 4 ≤ b := by omega
      have hread := query_run (e := Fail.device) (f := (readBlock · b))
        (readBlock_of_ready hm.ready hm.lt)
      refine .branch (fun hfull => absurd hfull (by omega)) fun _ => .bind_run hread ?_
      refine .bind_run (writeBlock_run hm.ready hm.lt _) (.ret ⟨rfl, ?_, b, v1, hR, ?_⟩)
      · exact hm.toTreeStep.trans (Fill.of_data hm.held (setBlock_effect hm.ready hb _)
          (setBlock_bits hb _) (fun c hc => ⟨offset / 4096, hm.here.trans hc.symm⟩)
          (fun c hc => by omega)).1.toTreeStep
      · exact (setBlock_bits hb _).usedBlock
    · rintro ⟨nd1, wrote⟩ w' ⟨hwrote, hstep, b, w, hR, hused⟩
      simp only at hwrote hstep hR
      simp only [hwrote, Nat.zero_add]
      have hdone : Ready w' ∧ SameEnv (beginDefer v) w' ∧ TreeStep ino v nd (endDefer w') nd1 ∧
            ∃ b w, R (nd1, b) w ∧ ∀ c, usedBlock (endDefer w') c = usedBlock w c :=
        ⟨hstep.ready, hstep.env, hstep.endDefer, b, w, hR, fun c =>
          ((endDefer_bits hstep.ready).usedBlock c).trans (hused c)⟩
      cases n with
      | zero => exact .ret hdone
      | succ n =>
        unfold writeLoop
        rw [if_neg (lt_irrefl _)]
        exact .ret hdone
  · rintro nd1 v1 ⟨hstep, b, w, hR, hused⟩
    exact .bind_get (.bind_run (writeInode_run hstep.ready hi _)
      (.ret ⟨(nd1, b), w, hR, rfl, fun c => ((putInode_bits hi _).usedBlock c).trans (hused c)⟩))

theorem truncateFile_post (hv : Ready v) (h : Held v ino nd) (hi : ValidIno ino) :
    Post (truncateFile ino nd) v
      (fun nd' v' => Saved ino v nd v' nd' ∧ SameKind nd nd' ∧ nd'.size = 0 ∧ nd'.Blank ∧
        ∀ c, usedBlock v' c = true ↔ usedBlock v c = true ∧ ¬(c ≠ 0 ∧ ∃ s, tree v.disk nd s = c))
      (fun _ _ => False) := by
  have hfree : Post (deferred (freeInodeBlocks nd)) v
      (fun nd1 v1 => TreeStep ino v nd v1 nd1 ∧ nd1.Blank ∧
        SameKind nd nd1 ∧ nd1.size = 0 ∧ ∀ c, usedBlock v1 c = true ↔
          usedBlock v c = true ∧ ¬(c ≠ 0 ∧ ∃ s, tree v.disk nd s = c))
      (fun _ _ => False) := by
    refine Post.deferred ((freeInodeBlocks_post (beginDefer_ready hv) h.beginDefer).mono ?_ fun _ _ he => he.elim)
    rintro nd1 v1 ⟨hs, _, _, hused, hnd⟩
    refine ⟨hs.ready, hs.env, hs.toTreeStep.endDefer, ?_, ?_, ?_, fun c => ?_⟩
    · rw [hnd]
      exact fun _ => rfl
    · rw [hnd]
      exact ⟨rfl, rfl, rfl, rfl⟩
    · rw [hnd]
    · rw [(endDefer_bits hs.ready).usedBlock]
      exact hused c
  refine .seq hfree ?_
  rintro nd1 v1 ⟨hstep, hblank, hkind, hsize, hused⟩
  have htouch : nd1.touch v1.now = nd1.resized 0 v1.now := by
    rw [resized, ← hsize]
  obtain ⟨hrun, hsaved, _⟩ := saveResized hstep hi (show 0 < 4294967296 by decide)
  refine .bind_get ?_
  rw [htouch]
  refine .bind_run hrun (.ret ⟨hsaved, ?_, rfl, hblank, ?_⟩)
  · exact hkind.trans (resized_sameKind ..)
  · intro c
    rw [(putInode_bits hi _).usedBlock]
    exact hused c

theorem Inode.Blank.fileByte (h : nd.Blank) (d : Nat → Buf) (q : Nat) : fileByte d nd q = 0 :=
  fileByte_of_hole (h.tree d _)

theorem inodeBlockCount_lt (nd : Inode) : inodeBlockCount nd < maxLogical := by
  unfold inodeBlockCount maxLogical
  omega

theorem Shrink.fileByte_of_stays (h : Shrink ino v nd v1 nd1) (hheld : Held v ino nd)
    {q : Nat} (hq : q / 4096 = logical)
    (hs : tree v1.disk nd1 (dataSlot logical) = tree v.disk nd (dataSlot logical)) :
    fileByte v1.disk nd1 q = fileByte v.disk nd q := by
  subst hq
  refine fileByte_congr hs fun hne => h.data _ (hheld.live hne).1 fun p hp => ?_
  rw [← tree_slot] at hp
  exact dataSlot_ne_slot _ p (hheld.inj hne hp.symm)

theorem shrinkBlocks_post (hv : Ready v) (h : Held v ino nd) (size : Nat) :
    Post (shrinkBlocks nd size) v (fun nd' v' => Shrink ino v nd v' nd' ∧ SameAttrs nd nd' ∧
        ∀ q, fileByte v'.disk nd' q =
          if (size + 4095) / 4096 ≤ q / 4096 ∧ q / 4096 < inodeBlockCount nd then 0
          else fileByte v.disk nd q) (fun _ _ => False) := by
  obtain ⟨low, hlow⟩ : ∃ low, low = (size + 4095) / 4096 := ⟨_, rfl⟩
  have hcount := inodeBlockCount_lt nd
  have hloop : Post (steps (fun logical nd => freeLogicalBlock nd logical)
      (inodeBlockCount nd - low) low nd) v
      (fun nd1 v1 => Cleared ino v nd v1 nd1 fun s => ∃ m, low ≤ m ∧
        m < low + (inodeBlockCount nd - low) ∧ s = dataSlot m)
      (fun _ _ => False) := by
    refine (Post.loop (fun i nd1 v1 => low ≤ i ∧ Cleared ino v nd v1 nd1 fun s => ∃ m, low ≤ m ∧
      m < i ∧ s = dataSlot m) (low + (inodeBlockCount nd - low)) ?_ _ low nd v rfl
      ⟨le_refl low, ?_⟩).weaken (fun _ _ hc => hc.2)
    · rintro i nd1 v1 hi ⟨hli, hc⟩
      refine (freeLogicalBlock_post hc.ready hc.held (by omega)).weaken (fun nd2 v2 hc2 => ?_)
      refine ⟨by omega, (hc.trans hc2).congr fun s _ => ?_⟩
      constructor
      · rintro (⟨m, h1, h2, rfl⟩ | rfl)
        · exact ⟨m, h1, by omega, rfl⟩
        · exact ⟨i, hli, by omega, rfl⟩
      · rintro ⟨m, h1, h2, rfl⟩
        by_cases hm : m = i
        · exact .inr (hm ▸ rfl)
        · exact .inl ⟨m, h1, by omega, rfl⟩
    · refine (Cleared.refl hv h).congr fun s _ => ⟨False.elim, ?_⟩
      rintro ⟨m, h1, h2, _⟩
      omega
  unfold shrinkBlocks
  simp only [← hlow]
  refine .seq hloop fun nd1 v1 hc => ?_
  refine (freeEmptyIndirectBlocks_post hc.ready hc.held).weaken (fun nd2 v2 hp => ?_)
  refine ⟨hc.toShrink.trans hp.toShrink, hc.attrs.trans hp.attrs, fun q => ?_⟩
  rw [hp.toShrink.fileByte_of_stays hc.held rfl (hp.same _)]
  split_ifs with hin
  · exact fileByte_of_hole (hc.gone _ ⟨_, hin.1, by omega, rfl⟩)
  · refine hc.toShrink.fileByte_of_stays h rfl (hc.stays _ ?_)
    rintro ⟨m, h1, h2, heq⟩
    have := dataSlot_inj heq
    omega

theorem clearTail_post (hv : Ready v) (h : Held v ino nd) {size : Nat} (hs : size < 4294967296) :
    Post (clearTail nd size) v (fun _ v' => Fill ino v nd v' nd ∧ ∀ q, fileByte v'.disk nd q =
          if size ≤ q ∧ q < (size + 4095) / 4096 * 4096 then 0 else fileByte v.disk nd q)
      (fun _ _ => False) := by
  have hl : size / 4096 < maxLogical := by unfold maxLogical; omega
  refine .branch (fun h0 => .ret ⟨Fill.refl hv h, fun q => ?_⟩) (fun h0 => ?_)
  · rw [if_neg (by omega)]
  · refine .bind_run (query_run (inodeFindDataBlock_eq hv h.lt hl)) ?_
    refine .branch (fun hhole => .ret ⟨Fill.refl hv h, fun q => ?_⟩) (fun hne => ?_)
    · split_ifs with hin
      · have hq : q / 4096 = size / 4096 := by omega
        exact fileByte_of_hole (hq ▸ hhole)
      · rfl
    · obtain ⟨b, hb⟩ : ∃ b, b = tree v.disk nd (dataSlot (size / 4096)) := ⟨_, rfl⟩
      have hlive := h.live hne
      rw [← hb] at hlive hne ⊢
      refine .bind_run (query_run (readBlock_of_ready hv hlive.2.1)) ?_
      refine .of_run (writeBlock_run hv hlive.2.1 _) ?_
      have hone : ∀ i, i < 1 → tree v.disk nd (dataSlot (size / 4096 + i)) = b + i := by
        intro i hi
        obtain rfl : i = 0 := by omega
        exact hb.symm
      rw [setBlock_eq_setBlocks]
      obtain ⟨hfill, hbytes⟩ := writeRun_fill hv h hlive.1 hone
        (fill (v.disk b) (size % 4096) (4096 - size % 4096) 0)
      refine ⟨(@hfill 0 0).toFill, fun q => ?_⟩
      rw [hbytes]
      by_cases hq : q / 4096 = size / 4096
      · have hoff : q - 4096 * (size / 4096) = q % 4096 := by omega
        rw [if_pos (by omega), hoff]
        by_cases hin : size ≤ q
        · have hfillin : size % 4096 ≤ q % 4096 ∧
              q % 4096 < size % 4096 + (4096 - size % 4096) := by omega
          rw [if_pos (by omega)]
          simp only [fill, hfillin, and_self, if_true]
        · have hfillout : ¬(size % 4096 ≤ q % 4096 ∧
              q % 4096 < size % 4096 + (4096 - size % 4096)) := by omega
          rw [if_neg (by omega)]
          simp only [fill, hfillout, if_false, fileByte, hq, ← hb, hne]
      · rw [if_neg (by omega), if_neg (by omega)]

def ZeroTail (d : Nat → Buf) (nd : Inode) : Prop := ∀ q, nd.size ≤ q → fileByte d nd q = 0

def Resized (v : Vol) (nd : Inode) (size : Nat) (v' : Vol) (nd' : Inode) : Prop :=
  ZeroTail v.disk nd → nd.size ≤ 4294963200 →
    ∀ q, fileByte v'.disk nd' q = if q < size then fileByte v.disk nd q else 0

theorem resizeGrow_post (hv : Ready v) (h : Held v ino nd) (hi : ValidIno ino) {size : Nat}
    (hs : size < 4294967296) (hlt : nd.size < size) :
    Post (do
        let nd ← writeFileRange ino nd (size - 1) [0]
        let v ← get
        let nd := ({ nd with size := size } : Inode).touch v.now
        writeInode ino nd
        pure nd) v
      (fun nd' v' => Saved ino v nd v' nd' ∧ SameKind nd nd' ∧ nd'.size = size ∧
        Resized v nd size v' nd')
      (RangeFails ino ((size - 1) / 4096) ((size + 4095) / 4096) v nd) := by
  have hlen : size - 1 + [(0 : UInt8)].length < 4294967296 := by
    simp only [length_singleton]
    omega
  have hend : size - 1 + [(0 : UInt8)].length = size := by
    simp only [length_singleton]
    omega
  have hwrite := writeFileRange_post hv h hi hlen
  rw [hend] at hwrite
  refine .seq hwrite ?_
  rintro nd1 v1 ⟨hsaved, hkind, _, hbytes, _⟩
  obtain ⟨hrun, hsaved2, hsame⟩ := saveResized (TreeStep.refl hsaved.ready hsaved.held) hi hs
  refine .bind_get (.bind_run hrun (.ret ⟨hsaved.trans hsaved2,
    hkind.trans (resized_sameKind ..), rfl, fun htail _ q => ?_⟩))
  refine (hsame q).trans ?_
  rw [hbytes q]
  by_cases hq : size - 1 ≤ q ∧ q < size
  · obtain rfl : q = size - 1 := by omega
    rw [if_pos hq, if_pos (by omega), htail _ (by omega), Nat.sub_self]
    rfl
  · rw [if_neg hq]
    split_ifs with hqs
    · rfl
    · exact htail q (by omega)

theorem resizeShrink_post (hv : Ready v) (h : Held v ino nd) (hi : ValidIno ino) {size : Nat}
    (hlt : size < nd.size) :
    Post (do
        let nd ← deferred (shrinkBlocks nd size)
        clearTail nd size
        let v ← get
        let nd := ({ nd with size := size } : Inode).touch v.now
        writeInode ino nd
        pure nd) v
      (fun nd' v' => Saved ino v nd v' nd' ∧ SameKind nd nd' ∧ nd'.size = size ∧
        Resized v nd size v' nd')
      (fun _ _ => False) := by
  have hs : size < 4294967296 := lt_trans hlt h.fits.size
  have hdefer : Post (deferred (shrinkBlocks nd size)) v
      (fun nd1 v1 => TreeStep ino v nd v1 nd1 ∧ SameAttrs nd nd1 ∧ ∀ q, fileByte v1.disk nd1 q =
        if (size + 4095) / 4096 ≤ q / 4096 ∧ q / 4096 < inodeBlockCount nd then 0
        else fileByte v.disk nd q)
      (fun _ _ => False) := by
    refine Post.deferred ((shrinkBlocks_post (beginDefer_ready hv) h.beginDefer size).mono ?_ fun _ _ he => he.elim)
    rintro nd1 v1 ⟨hshrink, hattrs, hbytes⟩
    refine ⟨hshrink.ready, hshrink.env, hshrink.toTreeStep.endDefer, hattrs, fun q => ?_⟩
    exact (fileByte_endDefer hshrink.held q).trans (hbytes q)
  refine .seq hdefer ?_
  rintro nd1 v1 ⟨hstep, hattrs, hbytes⟩
  refine .seq (clearTail_post hstep.ready hstep.held hs) ?_
  rintro _ v2 ⟨hfill, htail⟩
  obtain ⟨hrun, hsaved, hsame⟩ := saveResized (hstep.trans hfill.toTreeStep) hi hs
  refine .bind_get (.bind_run hrun (.ret ⟨hsaved,
    hattrs.sameKind.trans (resized_sameKind ..), rfl, fun hzero hmax q => ?_⟩))
  have hcount : inodeBlockCount nd = (nd.size + 4095) / 4096 := by
    unfold inodeBlockCount
    rw [Nat.mod_eq_of_lt (by omega)]
  refine (hsame q).trans ?_
  rw [htail q, hbytes q, hcount]
  by_cases hq : q < size
  · rw [if_neg (by omega), if_neg (by omega), if_pos hq]
  · rw [if_neg hq]
    split_ifs with h1 h2
    · rfl
    · rfl
    · exact hzero q (by omega)

theorem resizeFile_post (hv : Ready v) (h : Held v ino (table v ino)) (hi : ValidIno ino)
    {size : Nat} (hfile : inodeIsFile (table v ino) = true) (hs : size ≤ maxWriteFileBytes) :
    Post (resizeFile ino (table v ino) size) v
      (fun nd' v' => Saved ino v (table v ino) v' nd' ∧ SameKind (table v ino) nd' ∧
        nd'.size = size ∧ Resized v (table v ino) size v' nd')
      (RangeFails ino ((size - 1) / 4096) ((size + 4095) / 4096) v (table v ino)) := by
  have hmax : size < 4294967296 := lt_of_le_of_lt hs (by decide)
  unfold resizeFile
  rw [if_neg (by simp only [hfile]; simpa using hs)]
  refine .branch (fun heq => ?_) (fun hne => .branch (fun hzero => ?_)
    (fun hpos => .branch (fun hlt => ?_) (fun hge => ?_)))
  · refine .ret ⟨Saved.refl hv h, SameKind.refl _, heq.symm, fun htail _ q => ?_⟩
    split_ifs with hq
    · rfl
    · exact htail q (by omega)
  · refine (truncateFile_post hv h hi).mono ?_ fun _ _ he => he.elim
    rintro nd' v' ⟨hsaved, hkind, hsize, hblank, _⟩
    refine ⟨hsaved, hkind, hsize.trans hzero.symm, fun _ _ q => ?_⟩
    rw [hblank.fileByte, hzero, if_neg (by omega)]
  · exact resizeGrow_post hv h hi hmax hlt
  · exact (resizeShrink_post hv h hi (by omega)).mono (fun _ _ hr => hr) fun _ _ he => he.elim

def PieceFails (ino len : Nat) (v : Vol) (nd : Inode) (e : Fail) (v' : Vol) : Prop :=
  ∃ v₁ nd₁, Saved ino v nd v₁ nd₁ ∧ RangeFails ino 0 ((len + 4095) / 4096) v₁ nd₁ e v' ∧
    (nd₁.block 13 ≠ 0 → tree v₁.disk nd₁ (.entry .double 0) ≠ 0)

theorem RangeFails.mono {hi' : Nat} (h : RangeFails ino lo hi v nd e v1)
    (hwhole : Whole v.disk nd 0 lo) (hhi : hi ≤ hi') : RangeFails ino 0 hi' v nd e v1 := by
  obtain ⟨he, hg | ⟨w, nd', logical, u, hf, h1, h2, hrest, hend⟩⟩ := h
  · exact ⟨he, .inl hg⟩
  · exact ⟨he, .inr ⟨w, nd', logical, u, hf, Nat.zero_le _, by omega,
      Whole.append (v := beginDefer v) hwhole hf hrest, hend⟩⟩

theorem writeSourceLoop_post (hdata : data.length < 4294967296)
    {fuel : Nat} (hv : Ready v) (h : Held v ino (table v ino)) (hi : ValidIno ino)
    (hle : offset ≤ data.length) (hfuel : data.length - offset ≤ fuel)
    (hsolid : Solid v.disk (table v ino) (offset / 4096)) :
    Post (writeSourceLoop ino data fuel offset (table v ino)) v
      (fun nd' v' => Saved ino v (table v ino) v' nd' ∧ SameKind (table v ino) nd' ∧
        ∀ q, fileByte v'.disk nd' q =
          if offset ≤ q ∧ q < data.length then data.getD q 0 else fileByte v.disk (table v ino) q)
      (PieceFails ino data.length v (table v ino)) := by
  induction fuel generalizing v offset with
  | zero =>
    refine .ret ⟨Saved.refl hv h, SameKind.refl _, fun q => ?_⟩
    rw [if_neg (by omega)]
  | succ fuel ih =>
    refine .branch (fun hlt => ?_) (fun hge => .ret ⟨Saved.refl hv h, SameKind.refl _, fun q => ?_⟩)
    · obtain ⟨chunk, hchunk⟩ : ∃ chunk, chunk = min (data.length - offset) 65536 := ⟨_, rfl⟩
      have hlen : ((data.drop offset).take chunk).length = chunk := by
        rw [length_take, length_drop]
        omega
      simp only [← hchunk]
      refine Post.bind (writeFileRange_post hv h hi (by rw [hlen]; omega))
        (fun e v' he => ⟨v, table v ino, Saved.refl hv h, he.mono hsolid.1 (by rw [hlen]; omega),
          hsolid.2⟩) ?_
      rintro nd1 v1 ⟨hsaved, hkind, _, hbytes, hgrown⟩
      rw [hlen] at hgrown
      have hself := hsaved.table_self
      have hnext := ih hsaved.ready (by rw [hself]; exact hsaved.held)
        (show offset + chunk ≤ data.length by omega) (by omega)
        (by rw [hself]; exact hgrown hsolid)
      rw [hself] at hnext
      refine hnext.mono ?_ ?_
      · rintro nd' v' ⟨hsaved', hkind', hbytes'⟩
        refine ⟨hsaved.trans hsaved', hkind.trans hkind', fun q => ?_⟩
        rw [hbytes' q, hbytes q, hlen]
        by_cases h1 : offset + chunk ≤ q ∧ q < data.length
        · rw [if_pos h1, if_pos (by omega)]
        · rw [if_neg h1]
          by_cases h2 : offset ≤ q ∧ q < offset + chunk
          · rw [if_pos h2, if_pos (by omega)]
            simp only [getD_eq_getElem?_getD, getElem?_take, getElem?_drop]
            rw [if_pos (by omega), Nat.add_sub_cancel' h2.1]
          · rw [if_neg h2, if_neg (by omega)]
      · rintro e v' ⟨w, nd2, hs, he⟩
        exact ⟨w, nd2, hsaved.trans hs, he⟩
    · rw [if_neg (by omega)]

theorem writeFileFromSource_post (hv : Ready v) (h : Held v ino nd) (hi : ValidIno ino)
    (hdata : data.length ≤ maxWriteFileBytes) : Post (writeFileFromSource ino nd data) v
      (fun nd' v' => Saved ino v nd v' nd' ∧ SameKind nd nd' ∧
        nd'.size = data.length ∧ ∀ q, fileByte v'.disk nd' q = data.getD q 0)
      (PieceFails ino data.length v nd) := by
  have hmax : data.length < 4294967296 := lt_of_le_of_lt hdata (by decide)
  unfold writeFileFromSource
  rw [if_neg (by omega)]
  refine .bind (truncateFile_post hv h hi) (fun _ _ he => he.elim) ?_
  rintro nd1 v1 ⟨hsaved, hkind, hsize, hblank, _⟩
  refine .branch (fun h0 => .ret ⟨hsaved, hkind, hsize.trans h0.symm, fun q => ?_⟩) (fun hpos => ?_)
  · rw [hblank.fileByte, length_eq_zero_iff.mp h0]
    rfl
  · have hself := hsaved.table_self
    have hloop := writeSourceLoop_post hmax hsaved.ready (by rw [hself]; exact hsaved.held) hi
      (Nat.zero_le data.length) (le_refl _)
      (by rw [hself]; exact ⟨fun m _ hm => by omega, fun h13 => absurd (hblank 13) h13⟩)
    rw [hself] at hloop
    refine .bind hloop ?_ ?_
    · rintro e v' ⟨w, nd2, hs, he⟩
      exact ⟨w, nd2, hsaved.trans hs, he⟩
    · rintro nd2 v2 ⟨hsaved2, hkind2, hbytes2⟩
      have hfits : ({ nd2 with size := data.length } : Inode).Fits :=
        { hsaved2.held.fits with size := hmax }
      have hblock : ({ nd2 with size := data.length } : Inode).block = nd2.block := rfl
      have hsave := (TreeStep.refl hsaved2.ready hsaved2.held).saved hi hblock hfits
      refine .bind_run (writeInode_run hsaved2.ready hi _) (.ret
        ⟨(hsaved.trans hsaved2).trans hsave, (hkind.trans hkind2).trans ⟨rfl, rfl, rfl, rfl⟩, rfl,
          fun q => ?_⟩)
      refine (fileByte_of_block_eq hblock q).trans ?_
      rw [fileByte_putInode hsaved2.ready hi hsaved2.held, hbytes2 q]
      split_ifs with hq
      · rfl
      · rw [hblank.fileByte, getD_eq_default _ _ (by omega)]

end

end SmallOS.Ext2
