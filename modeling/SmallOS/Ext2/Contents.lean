import SmallOS.Ext2.File
import SmallOS.Ext2.FreshRun
import SmallOS.Ext2.Release

/-! The bytes of a file. `fileByte` reads a position through the tree, with zero in a hole. Every
way `write_file_range` has of writing a chunk is described by the byte at each position afterwards.
-/

namespace SmallOS.Ext2
open Bytes Prog Ownership

variable {zero : Bool} {e : Fail} {b first fuel hi hi' lo lo' logical maxBlocks n pos : Nat}
  {d : Nat → Buf} {W W' : Nat → Nat → Prop}

def fileByte (d : Nat → Buf) (nd : Inode) (pos : Nat) : UInt8 :=
  let b := tree d nd (dataSlot (pos / 4096))
  if b = 0 then 0 else d b (pos % 4096)

section

variable {ino : Nat} {v v1 v2 : Vol} {nd nd1 nd2 : Inode}

theorem fileByte_of_hole (h : tree d nd (dataSlot (pos / 4096)) = 0) : fileByte d nd pos = 0 := by
  simp only [fileByte, h, if_true]

theorem fileByte_congr {d' : Nat → Buf}
    (htree : tree d' nd1 (dataSlot (pos / 4096)) = tree d nd (dataSlot (pos / 4096)))
    (hdisk : tree d nd (dataSlot (pos / 4096)) ≠ 0 →
      d' (tree d nd (dataSlot (pos / 4096))) = d (tree d nd (dataSlot (pos / 4096)))) :
    fileByte d' nd1 pos = fileByte d nd pos := by
  simp only [fileByte, htree]
  split_ifs with h
  · rfl
  · rw [hdisk h]

theorem Grow.fileByte (h : Grow ino v nd v1 nd1) (hheld : Held v ino nd)
    (hsame : tree v1.disk nd1 (dataSlot (pos / 4096)) = tree v.disk nd (dataSlot (pos / 4096))) :
    fileByte v1.disk nd1 pos = fileByte v.disk nd pos :=
  fileByte_congr hsame fun hne => h.content hheld hne

theorem Mapped.fileByte (h : Mapped ino v nd v1 nd1 logical b zero)
    (hheld : Held v ino nd) (hpos : pos / 4096 ≠ logical ∨ zero = true) :
    fileByte v1.disk nd1 pos = fileByte v.disk nd pos := by
  by_cases hl : pos / 4096 = logical
  · by_cases h0 : tree v.disk nd (dataSlot (pos / 4096)) = 0
    · have hz : v1.disk b = zeros := h.clean (hpos.resolve_left (not_not.mpr hl)) (hl ▸ h0)
      rw [fileByte_of_hole h0]
      simp only [Ext2.fileByte, hl, h.here, h.nonzero, if_false, hz]
      rfl
    · exact h.toGrow.fileByte hheld (h.keep _ h0)
  · exact h.toGrow.fileByte hheld (h.elsewhere _ hl)

theorem DataRun.fileByte (h : DataRun ino v nd v1 nd1 logical first n) (hheld : Held v ino nd)
    (hpos : ¬(logical ≤ pos / 4096 ∧ pos / 4096 < logical + n)) :
    fileByte v1.disk nd1 pos = fileByte v.disk nd pos :=
  h.toGrow.fileByte hheld (h.elsewhere _ hpos)

theorem Fill.of_data (h : Held v ino nd) {S : Nat → Prop} (heff : Effect v v1 S)
    (hbits : SameBits v v1) (hS : ∀ c, S c → ∃ logical, tree v.disk nd (dataSlot logical) = c)
    (h36 : ∀ c, S c → 36 ≤ c) : Fill ino v nd v1 nd ∧ tree v1.disk nd = tree v.disk nd := by
  have hout : ∀ p, ptr v.disk nd p ≠ 0 → ¬S (ptr v.disk nd p) := by
    intro p hp hin
    obtain ⟨logical, heq⟩ := hS _ hin
    rw [← tree_slot] at hp heq
    exact dataSlot_ne_slot logical p (h.inj hp heq.symm).symm
  have htree : tree v1.disk nd = tree v.disk nd :=
    tree_congr fun p hp => heff.disk _ (le_trans (by decide) (h.ptr_ge hp)) (hout p hp)
  refine ⟨⟨TreeStep.intro h heff.ready heff.env hbits.inodes ?_ h.fits ?_ ?_ ?_ ?_ ?_, ?_, ?_,
    Inode.Sub.refl nd, rfl⟩, htree⟩
  · intro c h4 hlt
    refine heff.disk c h4 fun hin => ?_
    have := h36 c hin
    omega
  · intro b hb
    rw [hbits.usedBlock]
    exact h.reserved b hb
  · intro c hc hno
    refine ⟨(hbits.usedBlock c).trans hc.2.2, heff.disk c (by have := hc.1; omega) fun hin => ?_⟩
    obtain ⟨logical, heq⟩ := hS c hin
    exact hno _ heq
  · intro s hs
    rw [htree] at hs ⊢
    have := h.live hs
    exact ⟨this.1, this.2.1, (hbits.usedBlock _).trans this.2.2⟩
  · intro s _
    exact .inl ⟨s, by rw [htree]⟩
  · intro s t hs heq
    rw [htree] at hs heq
    exact h.inj hs heq
  · intro s _
    rw [htree]
  · intro c hc
    exact (hbits.usedBlock c).trans hc

/-- A `Fill` that adds pointer blocks only on the way to blocks it maps between `lo` and `hi`. -/
structure Filled (ino lo hi : Nat) (v : Vol) (nd : Inode) (v' : Vol) (nd' : Inode) : Prop
    extends Fill ino v nd v' nd' where
  pointers : ∀ p : Ptr, ptr v'.disk nd' p ≠ ptr v.disk nd p →
    ∃ m, lo ≤ m ∧ m < hi ∧ p.Leads m ∧ tree v'.disk nd' (dataSlot m) ≠ 0

structure Fills (ino lo hi : Nat) (v : Vol) (nd : Inode) (v' : Vol) (nd' : Inode) : Prop
    extends Filled ino lo hi v nd v' nd' where
  adds : Adds ino (OnWay lo (hi - lo)) v nd v' nd'

theorem Fill.fills_of_tree (h : Fill ino v nd v1 nd1) (htree : tree v1.disk nd1 = tree v.disk nd)
    (hadds : Adds ino (OnWay lo (hi - lo)) v nd v1 nd1) : Fills ino lo hi v nd v1 nd1 := by
  refine ⟨⟨h, fun p hp => absurd ?_ hp⟩, hadds⟩
  rw [← tree_slot, ← tree_slot, htree]

theorem Maps.fills (h : Maps ino v nd v1 nd1 logical b zero) (hlo : lo ≤ logical)
    (hhi : logical < hi) : Fills ino lo hi v nd v1 nd1 := by
  refine ⟨⟨h.toFill, fun p hp => ⟨logical, hlo, hhi, ?_, by rw [h.here]; exact h.nonzero⟩⟩,
    h.adds.mono fun s hs => ⟨logical - lo, by omega, by rwa [Nat.add_sub_cancel' hlo]⟩⟩
  by_contra hno
  exact hp (h.pointers p hno)

theorem DataRun.fills (h : DataRun ino v nd v1 nd1 logical first n)
    (hadds : Adds ino (OnWay logical n) v nd v1 nd1) (hn : 0 < n) (hhi : logical + n ≤ hi) :
    Fills ino logical hi v nd v1 nd1 := by
  refine ⟨⟨h.toFill, fun p hp => ⟨logical, le_refl _, by omega, ?_, ?_⟩⟩,
    hadds.mono fun s hs => hs.mono (le_refl _) fun _ _ => by omega⟩
  · by_contra hno
    exact hp (h.pointers p hno)
  · have hhere := h.here 0 hn
    have := h.low
    rw [Nat.add_zero] at hhere
    omega

theorem Fills.refl (hv : Ready v) (h : Held v ino nd) : Fills ino lo hi v nd v nd :=
  (Fill.refl hv h).fills_of_tree rfl (.refl hv h)

theorem Fills.trans (h : Fills ino lo hi v nd v1 nd1)
    (k : Fills ino lo hi v1 nd1 v2 nd2) : Fills ino lo hi v nd v2 nd2 := by
  refine ⟨⟨h.toFill.trans k.toFill, fun p hp => ?_⟩, h.adds.trans k.adds⟩
  by_cases hp1 : ptr v1.disk nd1 p = ptr v.disk nd p
  · exact k.pointers p (hp1 ▸ hp)
  · obtain ⟨m, hlo, hhi, hlead, hne⟩ := h.pointers p hp1
    exact ⟨m, hlo, hhi, hlead, by rw [k.keep _ hne]; exact hne⟩

theorem Fills.mono (h : Fills ino lo hi v nd v1 nd1) (hlo : lo' ≤ lo)
    (hhi : hi ≤ hi') : Fills ino lo' hi' v nd v1 nd1 := by
  refine ⟨⟨h.toFill, fun p hp => ?_⟩, h.adds.mono fun s hs => hs.mono hlo fun _ _ => by omega⟩
  obtain ⟨m, h1, h2, hm⟩ := h.pointers p hp
  exact ⟨m, by omega, by omega, hm⟩

def Whole (d : Nat → Buf) (nd : Inode) (lo hi : Nat) : Prop :=
  ∀ m, lo ≤ m → m < hi → tree d nd (dataSlot m) ≠ 0

theorem Whole.append {mid : Nat} (h : Whole v.disk nd lo mid) (hf : Fill ino v nd v1 nd1)
    (hrest : Whole v1.disk nd1 mid hi) : Whole v1.disk nd1 lo hi := by
  intro m hlo hhi
  by_cases hm : mid ≤ m
  · exact hrest m hm hhi
  · have hne := h m hlo (by omega)
    rwa [hf.keep _ hne]

/-- The first `n` blocks are there, and with a double-indirect block its first entry is. -/
def Solid (d : Nat → Buf) (nd : Inode) (n : Nat) : Prop :=
  Whole d nd 0 n ∧ (nd.block 13 ≠ 0 → tree d nd (.entry .double 0) ≠ 0)

theorem Fills.solid (h : Fills ino lo hi v nd v1 nd1) (hs : Solid v.disk nd lo)
    (hw : Whole v1.disk nd1 lo n) (hn : hi ≤ n + 1) : Solid v1.disk nd1 n := by
  have hwhole := hs.1.append h.toFill hw
  refine ⟨hwhole, fun h13 => ?_⟩
  by_cases hsame : nd1.block 13 = nd.block 13
  · have hne := hs.2 (hsame ▸ h13)
    rwa [h.keep _ hne]
  · have entry {m : Nat} (hlow : 1036 ≤ m) (hm : m ≤ 1036) (hne : tree v1.disk nd1 (dataSlot m) ≠ 0) :
        tree v1.disk nd1 (.entry .double 0) ≠ 0 :=
      (show Ptr.Leads m (.outer 0) from ⟨hlow, by omega⟩).ptr_ne hne
    by_cases hlast : 1036 < n
    · exact entry (le_refl _) (le_refl _) (hwhole 1036 (Nat.zero_le _) hlast)
    · obtain ⟨m, _, hm, hlead, hne⟩ := h.pointers .double hsame
      exact entry hlead (by omega) hne

theorem Fills.keeps_run (h : Fills ino lo hi v nd v1 nd1) (h36 : 36 ≤ first)
    (hhere : ∀ i, i < n → tree v.disk nd (dataSlot (logical + i)) = first + i) {m : Nat}
    (hlow : logical ≤ m) (hhigh : m < logical + n) : tree v1.disk nd1 (dataSlot m) ≠ 0 := by
  have hm := hhere (m - logical) (by omega)
  rw [Nat.add_sub_cancel' hlow] at hm
  have hne : tree v.disk nd (dataSlot m) ≠ 0 := by omega
  rwa [h.keep _ hne]

theorem writeRun_fill (hv : Ready v) (h : Held v ino nd) (h36 : 36 ≤ first)
    (hhere : ∀ i, i < n → tree v.disk nd (dataSlot (logical + i)) = first + i) (data : Buf) :
    (∀ {lo hi}, Fills ino lo hi v nd (setBlocks v first n data) nd) ∧
      ∀ pos, fileByte (setBlocks v first n data).disk nd pos =
        if logical ≤ pos / 4096 ∧ pos / 4096 < logical + n then data (pos - 4096 * logical)
        else fileByte v.disk nd pos := by
  have heff := setBlocks_effect hv (show 4 ≤ first by omega) n data
  have hbits := setBlocks_bits (v := v) (show 4 ≤ first by omega) n data
  obtain ⟨hfill, htree⟩ := Fill.of_data h heff hbits
    (fun c hc => ⟨logical + (c - first), by rw [hhere _ (by omega)]; omega⟩)
    (fun c hc => by omega)
  refine ⟨hfill.fills_of_tree htree (hfill.adds_of_tree h.fits htree hbits.usedBlock rfl rfl),
    fun pos => ?_⟩
  split_ifs with hin
  · have hb : tree v.disk nd (dataSlot (pos / 4096)) = first + (pos / 4096 - logical) := by
      rw [← hhere _ (by omega), Nat.add_sub_cancel' hin.1]
    have hne : first + (pos / 4096 - logical) ≠ 0 := by omega
    have hpos : 4096 * (pos / 4096 - logical) + pos % 4096 = pos - 4096 * logical := by omega
    simp only [fileByte, htree, hb, hne, if_false]
    rw [setBlocks_inside (by omega)]
    simp only [Buf.shift, hpos]
  · refine fileByte_congr (by rw [htree]) fun hne => setBlocks_outside fun hc => hin ?_
    have hslot := hhere (tree v.disk nd (dataSlot (pos / 4096)) - first) (by omega)
    rw [Nat.add_sub_cancel' hc.1] at hslot
    have := dataSlot_inj (h.inj hne hslot.symm)
    omega

theorem setBlock_eq_setBlocks (v : Vol) (b : Nat) (buf : Buf) :
    setBlock v b buf = setBlocks v b 1 buf := by
  simp only [setBlock, setBlocks]
  congr 1
  funext c
  by_cases hc : c = b
  · subst hc
    have hin : c ≤ c ∧ c < c + 1 := by omega
    simp only [Function.update_self, hin, and_self, if_true, Nat.sub_self, Nat.mul_zero]
    ext i
    simp only [Buf.shift, Nat.zero_add]
  · have hout : ¬(b ≤ c ∧ c < b + 1) := by omega
    simp only [Function.update_of_ne hc, hout, if_false]

/-- How a write fails: for lack of a block, and either with a sound tree or with a
new pointer block linked before it was filled, when all blocks before it were there. -/
def WriteFails (ino lo hi : Nat) (v : Vol) (nd : Inode) (e : Fail) (v' : Vol) : Prop :=
  e = .noBlock ∧ ((∃ nd', Fill ino v nd v' nd') ∨
    ∃ v₁ nd₁ logical, Fill ino v nd v₁ nd₁ ∧ lo ≤ logical ∧ logical < hi ∧
      Whole v₁.disk nd₁ lo logical ∧ Stale v₁ nd₁ logical v')

def WriteStuck (ino lo hi : Nat) (W : Nat → Nat → Prop) (v : Vol) (nd : Inode) (e : Fail)
    (v' : Vol) : Prop :=
  WriteFails ino lo hi v nd e v' ∧ Stuck ino (OnWay lo (hi - lo)) W v nd

theorem WriteStuck.of_lacks (h : Lacks ino (· ∈ way logical) v nd e v1) (hlo : lo ≤ logical)
    (hhi : logical < hi) : WriteStuck ino lo hi W v nd e v1 := by
  have hstuck := h.stuck (W := W)
  obtain ⟨he, _, ⟨nd', hg, _⟩, _⟩ := h
  exact ⟨⟨he, .inl ⟨nd', hg.toFill⟩⟩, hstuck.mono
    (fun s hs => ⟨logical - lo, by omega, by rwa [Nat.add_sub_cancel' hlo]⟩) fun _ _ hW _ => hW⟩

theorem WriteStuck.of_runStuck (hv : Ready v) (h : Held v ino nd) (hhi : logical + n ≤ hi)
    (hn : n ≠ 0) (hr : RunStuck ino v nd logical n e v1) :
    WriteStuck ino logical hi (Only logical n) v nd e v1 := by
  obtain ⟨⟨he, hcase⟩, hstuck⟩ := hr
  refine ⟨⟨he, ?_⟩, hstuck.mono (fun s hs => hs.mono (le_refl _) fun _ _ => by omega)
    fun _ _ hW _ => hW⟩
  obtain hg | hs := hcase
  · exact .inl ⟨nd, hg.toFill⟩
  · exact .inr ⟨v, nd, logical, Fill.refl hv h, le_refl _, by omega, fun m h1 h2 => by omega, hs⟩

theorem WriteStuck.after (hf : Fills ino lo' hi' v nd v1 nd1)
    (h : WriteStuck ino lo hi W v1 nd1 e v2) (hlo : lo' ≤ lo) (hhi : hi ≤ hi')
    (hwhole : Whole v1.disk nd1 lo' lo)
    (hW : ∀ l n, W l n → (n ≠ 0 → tree v1.disk nd1 (dataSlot l) = 0) → W' l n) :
    WriteStuck ino lo' hi' W' v nd e v2 := by
  obtain ⟨⟨he, hcase⟩, hstuck⟩ := h
  refine ⟨⟨he, ?_⟩, (hstuck.mono (fun s hs => hs.mono hlo fun _ _ => by omega) hW).after hf.adds⟩
  obtain ⟨nd', hg⟩ | ⟨w, nd', logical, hg, h1, h2, hrest, hs⟩ := hcase
  · exact .inl ⟨nd', hf.toFill.trans hg⟩
  · refine .inr ⟨w, nd', logical, hf.toFill.trans hg, by omega, by omega, ?_, hs⟩
    exact hwhole.append hg hrest

theorem WriteStuck.mono (hv : Ready v) (h : Held v ino nd) (he : WriteStuck ino lo hi W v nd e v2)
    (hhi : hi ≤ hi') (hW : ∀ l n, W l n → W' l n) : WriteStuck ino lo hi' W' v nd e v2 :=
  he.after (.refl hv h) (le_refl _) hhi (fun m h1 h2 => by omega) fun l n hln _ => hW l n hln

theorem extendRun_post {block blocks : Nat} (hv : Ready v)
    (h : Held v ino nd) (hl : logical + maxBlocks ≤ maxLogical) (hle : blocks ≤ maxBlocks)
    (hfuel : maxBlocks - blocks ≤ fuel)
    (hrun : ∀ i, i < blocks → tree v.disk nd (dataSlot (logical + i)) = block + i) :
    Post (extendRun logical block maxBlocks fuel blocks nd) v
      (fun r v' => Fills ino logical (logical + maxBlocks) v nd v' r.1 ∧ blocks ≤ r.2 ∧ r.2 ≤ maxBlocks ∧
        (∀ i, i < r.2 → tree v'.disk r.1 (dataSlot (logical + i)) = block + i) ∧
        (r.2 = maxBlocks ∨ tree v'.disk r.1 (dataSlot (logical + r.2)) ≠ 0) ∧
        ∀ pos, ¬(logical + blocks ≤ pos / 4096 ∧ pos / 4096 < logical + min (r.2 + 1) maxBlocks) →
          fileByte v'.disk r.1 pos = fileByte v.disk nd pos)
      (WriteStuck ino logical (logical + maxBlocks) W v nd) := by
  induction fuel generalizing v nd blocks with
  | zero => exact .ret ⟨.refl hv h, le_refl _, hle, hrun, .inl (by omega), fun _ _ => rfl⟩
  | succ fuel ih =>
    refine .branch (fun hlt => ?_)
      (fun hge => .ret ⟨.refl hv h, le_refl _, hle, hrun, .inl (by omega), fun _ _ => rfl⟩)
    refine .bind (inodeGetDataBlockEx_post hv h (by omega) false)
      (fun _ _ he => .of_lacks he (by omega) (by omega)) ?_
    rintro ⟨nd1, next⟩ v1 hm
    have hkeep : ∀ i, i < blocks → tree v1.disk nd1 (dataSlot (logical + i)) = block + i :=
      fun i hi => (hm.elsewhere _ (by omega)).trans (hrun i hi)
    refine .branch (fun h0 => absurd h0 hm.nonzero) (fun _ => .branch (fun _ => ?_) (fun heq => ?_))
    · refine .ret ⟨hm.fills (by omega) (by omega), le_refl _, hle, hkeep,
        .inr (hm.here.trans_ne hm.nonzero), fun pos hpos => ?_⟩
      exact hm.fileByte h (.inl (by omega))
    · have hrun1 : ∀ i, i < blocks + 1 → tree v1.disk nd1 (dataSlot (logical + i)) = block + i := by
        intro i hi
        by_cases hib : i = blocks
        · subst hib
          exact hm.here.trans (not_not.mp heq)
        · exact hkeep i (by omega)
      refine (ih hm.ready hm.held (by omega) (by omega) hrun1).mono ?_
        fun _ _ he => he.after (hm.fills (by omega) (by omega)) (le_refl _) (le_refl _)
          (fun m h1 h2 => by omega) fun _ _ hW _ => hW
      rintro ⟨nd', m⟩ v' ⟨hg, h1, h2, h3, hstop, h4⟩
      refine ⟨(hm.fills (by omega) (by omega)).trans hg, by omega, h2, h3, hstop, fun pos hpos => ?_⟩
      exact (h4 pos (by omega)).trans (hm.fileByte h (.inl (by omega)))

/-- Sixteen blocks in a row are free or blocks of the file. -/
def LongRun (v : Vol) (nd : Inode) : Prop :=
  ∃ a, 36 ≤ a ∧ a + 16 ≤ 8192 ∧ ∀ c, a ≤ c → c < a + 16 →
    usedBlock v c = false ∨ ∃ s, tree v.disk nd s = c

theorem Fill.longRun (h : Fill ino v nd v1 nd1) : LongRun v1 nd1 → LongRun v nd :=
  fun ⟨a, hlow, hhigh, hrun⟩ => ⟨a, hlow, hhigh, fun c h1 h2 =>
    h.toFrame.free_or_held (by omega) (by omega) (hrun c h1 h2)⟩

theorem LongRun.intro (h36 : 36 ≤ first) (hhigh : first + n ≤ 8192)
    (hhere : ∀ i, i < n → tree v.disk nd (dataSlot (logical + i)) = first + i) (hn : n = 16) :
    LongRun v nd := by
  refine ⟨first, h36, by omega, fun c hlow hlt => .inr ⟨dataSlot (logical + (c - first)), ?_⟩⟩
  rw [hhere _ (by omega), Nat.add_sub_cancel' hlow]

/-- Whole blocks: `m` of them are written, and one more may have been mapped. They stop short of
`maxBlocks` only at the end of an area, after a fresh run, or in front of a block that is there. -/
def WroteBlocks (ino : Nat) (v : Vol) (nd : Inode) (logical maxBlocks : Nat) (data : Buf)
    (r : Inode × Nat) (v' : Vol) : Prop :=
  ∃ m, 0 < m ∧ m ≤ maxBlocks ∧ r.2 = m * 4096 ∧
    Fills ino logical (logical + maxBlocks) v nd v' r.1 ∧
    Whole v'.disk r.1 logical (logical + m) ∧ (m = 16 → LongRun v nd) ∧
    (m = maxBlocks ∨ (m = areaLeft logical ∧ tree v.disk nd (dataSlot logical) = 0) ∨
      tree v'.disk r.1 (dataSlot (logical + m)) ≠ 0) ∧
    (∀ pos, logical ≤ pos / 4096 → pos / 4096 < logical + m →
      fileByte v'.disk r.1 pos = data (pos - 4096 * logical)) ∧
    ∀ pos, ¬(logical ≤ pos / 4096 ∧ pos / 4096 < logical + min (m + 1) maxBlocks) →
      fileByte v'.disk r.1 pos = fileByte v.disk nd pos

theorem writeWholeBlocks_post (hv : Ready v) (h : Held v ino nd)
    (hl : logical + maxBlocks ≤ maxLogical) (h0 : 0 < maxBlocks) (h16 : maxBlocks ≤ 16)
    (data : Buf) : Post (writeWholeBlocks nd logical maxBlocks data) v
      (WroteBlocks ino v nd logical maxBlocks data) (WriteStuck ino logical (logical + maxBlocks)
        (Only logical (min (areaLeft logical) maxBlocks)) v nd) := by
  have harea := areaLeft_pos logical
  refine .bind (inodePrepareFreshBlocks_post hv h (by omega) (by omega))
    (fun _ _ he => .of_runStuck hv h (by omega) (by omega) he) ?_
  rintro ⟨nd1, prepared⟩ v1 ⟨hr, hr'⟩
  cases prepared with
  | some run =>
    obtain ⟨first, n⟩ := run
    obtain ⟨hn, hmax, hrun⟩ := hr
    obtain ⟨rfl, hadds⟩ := hr'
    have hhigh := hrun.high
    refine .bind_run (writeBlocks_run hrun.ready hn (by omega) hhigh data) (.ret ?_)
    obtain ⟨hfill, hbytes⟩ := writeRun_fill hrun.ready hrun.held hrun.low hrun.here data
    have hgrown : Fills ino logical (logical + maxBlocks) v nd v1 nd1 :=
      hrun.fills hadds hn (by omega)
    refine ⟨_, hn, by omega, rfl, hgrown.trans hfill, fun k h1 h2 => ?_,
      fun h16 => hgrown.toFill.longRun (.intro hrun.low hhigh hrun.here h16),
      (min_choice _ _).symm.imp_right fun harea => .inl ⟨harea, hrun.empty 0 hn⟩,
      fun pos h1 h2 => ?_, fun pos hpos => ?_⟩
    · exact Fills.keeps_run (hfill : Fills ino 0 0 v1 nd1 _ nd1) hrun.low hrun.here h1 h2
    · rw [hbytes, if_pos ⟨h1, h2⟩]
    · rw [hbytes, if_neg (by omega)]
      exact hrun.fileByte h (by omega)
  | none =>
    obtain ⟨rfl, rfl⟩ := hr
    refine .bind (inodeGetDataBlockEx_post hv h (by omega) false)
      (fun _ _ he => .of_lacks he (le_refl _) (by omega)) ?_
    rintro ⟨nd2, block⟩ v2 hm
    refine .branch (fun hzero => absurd hzero hm.nonzero) (fun _ => ?_)
    have hone := hm.run
    refine .bind (extendRun_post hm.ready hm.held hl h0 (by omega) hone)
      (fun _ _ he => he.after (hm.fills (le_refl _) (by omega)) (le_refl _) (le_refl _)
        (fun m h1 h2 => by omega) fun _ _ hW _ => hW) ?_
    rintro ⟨nd3, m⟩ v3 ⟨hg, h1, h2, hrun, hstop, hsame⟩
    obtain ⟨hlow, hhigh⟩ := hg.held.run_bounds hm.nonzero (by omega) hrun
    refine .bind_run (writeBlocks_run hg.ready (by omega) (by omega) hhigh data) (.ret ?_)
    obtain ⟨hfill, hbytes⟩ := writeRun_fill hg.ready hg.held hlow hrun data
    have hkept : Fills ino 0 0 v3 nd3 _ nd3 := hfill
    have hgrown := (hm.fills (le_refl _) (show _ ≤ logical + maxBlocks by omega)).trans hg
    refine ⟨m, by omega, h2, rfl, hgrown.trans hfill,
      fun k h3 h4 => hkept.keeps_run hlow hrun h3 h4,
      fun h16 => hgrown.toFill.longRun (.intro hlow hhigh hrun h16),
      hstop.imp_right fun hne => .inr ((hkept.keep _ hne).trans_ne hne), fun pos h3 h4 => ?_,
      fun pos hpos => ?_⟩
    · rw [hbytes, if_pos ⟨h3, h4⟩]
    · rw [hbytes, if_neg (by omega), hsame pos (by omega)]
      exact hm.fileByte h (.inl (by omega))

theorem writePartBlock_post (hv : Ready v) (h : Held v ino nd) {blockOff chunk : Nat}
    (hl : logical < maxLogical) (hchunk : blockOff + chunk ≤ 4096) (data : Buf) :
    Post (writePartBlock nd logical blockOff chunk data) v
      (fun r v' => r.2 = chunk ∧ Fills ino logical (logical + 1) v nd v' r.1 ∧
        Whole v'.disk r.1 logical (logical + 1) ∧ ∀ pos, fileByte v'.disk r.1 pos =
          if pos / 4096 = logical ∧ blockOff ≤ pos % 4096 ∧ pos % 4096 < blockOff + chunk then
            data (pos % 4096 - blockOff) else fileByte v.disk nd pos)
      (WriteStuck ino logical (logical + 1) W v nd) := by
  refine .bind (inodeGetDataBlockEx_post hv h hl true)
    (fun _ _ he => .of_lacks he (le_refl _) (by omega)) ?_
  rintro ⟨nd1, block⟩ v1 hm
  have hb : block < 8192 := hm.lt
  have hone := hm.run
  obtain ⟨hlow, -⟩ := hm.held.run_bounds hm.nonzero (by omega) hone
  -- the buffer that is merged with the data: a whole-block write does not read it
  have hbuf : ∀ buf : Buf, (chunk = 4096 ∨ buf = v1.disk block) →
      Post (do writeBlock block (copy buf blockOff chunk data); pure (nd1, chunk)) v1
        (fun r v' => r.2 = chunk ∧ Fills ino logical (logical + 1) v nd v' r.1 ∧
          Whole v'.disk r.1 logical (logical + 1) ∧ ∀ pos, fileByte v'.disk r.1 pos =
            if pos / 4096 = logical ∧ blockOff ≤ pos % 4096 ∧ pos % 4096 < blockOff + chunk then
              data (pos % 4096 - blockOff)
            else fileByte v.disk nd pos)
        (WriteStuck ino logical (logical + 1) W v nd) := by
    intro buf hcase
    refine .bind_run (writeBlock_run hm.ready hb _) (.ret ?_)
    rw [setBlock_eq_setBlocks]
    obtain ⟨hfill, hbytes⟩ := writeRun_fill hm.ready hm.held hlow hone (copy buf blockOff chunk data)
    refine ⟨rfl, (hm.fills (le_refl _) (by omega)).trans hfill, fun k h1 h2 =>
      Fills.keeps_run (hfill : Fills ino 0 0 v1 nd1 _ nd1) hlow hone h1 h2, fun pos => ?_⟩
    rw [hbytes]
    by_cases hpos : pos / 4096 = logical
    · have hoff : pos - 4096 * logical = pos % 4096 := by omega
      rw [if_pos (by omega), hoff]
      split_ifs with hin
      · exact copy_of_inside hin.2.1 hin.2.2
      · have hrest := hcase.resolve_left (by omega)
        rw [copy_of_outside (by omega), hrest, ← hm.fileByte h (.inr rfl)]
        simp only [fileByte, hpos, hm.here, hm.nonzero, if_false]
    · rw [if_neg (by omega), if_neg (fun hc => hpos hc.1)]
      exact hm.fileByte h (.inr rfl)
  refine .branch (fun h4096 => .bind_ret (hbuf zeros (.inl h4096))) (fun _ => ?_)
  exact .bind_run (query_run (readBlock_of_ready hm.ready hb)) (hbuf _ (.inr rfl))

/-- A write at `pos` with `rest` bytes to go may leave the block at `pos` mapped to
stale bytes only when the next turn writes that block as a whole. -/
def Exempt (pos rest q : Nat) : Prop :=
  pos % 4096 = 0 ∧ 4096 ≤ rest ∧ pos ≤ q ∧ q < pos + 4096

/-- The windows of a write that ends before block `last`, from block `start` on. -/
def Window (start last l n : Nat) : Prop :=
  start ≤ l ∧ l < last ∧ n = min (areaLeft l) (min (last - l) 16)

/-- Where a write from block `start` on can come to a window that is entirely missing: at first,
behind sixteen blocks in a row if there can be such, or behind a fresh run to the end of an area. -/
inductive Reached (long : Prop) (missing : Nat → Prop) (start : Nat) : Nat → Prop
  | start : Reached long missing start start
  | far {l : Nat} : start + 16 ≤ l → long → Reached long missing start l
  | area {k : Nat} : Reached long missing start k → missing k →
      Reached long missing start (k + areaLeft k)

section

variable {long long' : Prop} {missing missing' : Nat → Prop} {start last next l : Nat}

theorem Reached.le (h : Reached long missing start l) : start ≤ l := by
  induction h with
  | start => exact le_refl _
  | far hfar _ => omega
  | area _ _ ih => omega

theorem Reached.after (h : Reached long' missing' next l) (hlong : long' → long)
    (hmissing : ∀ k, missing' k → missing k) (hle : start ≤ next)
    (hr : Reached long missing start next ∨ last ≤ next ∨ ¬missing' next) (hl : l < last)
    (hfresh : missing' l) : Reached long missing start l := by
  induction h with
  | start => exact hr.resolve_right fun h => h.elim (by omega) fun hno => hno hfresh
  | far hfar h16 => exact .far (by omega) (hlong h16)
  | area _ hk ih => exact .area (ih (by omega) hk) (hmissing _ hk)

end

def Asked (v : Vol) (nd : Inode) (start last l n : Nat) : Prop :=
  Window start last l n ∧ Reached (LongRun v nd) (fun k => tree v.disk nd (dataSlot k) = 0) start l

theorem writeChunk_post (hv : Ready v) (h : Held v ino nd) {rest : Nat} (hrest : 0 < rest)
    (hend : pos + rest ≤ 4294967296) (data : Buf) : Post (writeChunk nd pos rest data) v
      (fun r v' => 0 < r.2 ∧ r.2 ≤ rest ∧
        Fills ino (pos / 4096) ((pos + rest + 4095) / 4096) v nd v' r.1 ∧
        Whole v'.disk r.1 (pos / 4096) ((pos + r.2) / 4096) ∧
        (Reached (LongRun v nd) (fun k => tree v.disk nd (dataSlot k) = 0) ((pos + 4095) / 4096)
            ((pos + r.2 + 4095) / 4096) ∨
          (pos + rest) / 4096 ≤ (pos + r.2 + 4095) / 4096 ∨
          tree v'.disk r.1 (dataSlot ((pos + r.2 + 4095) / 4096)) ≠ 0) ∧
        (∀ q, pos ≤ q → q < pos + r.2 → fileByte v'.disk r.1 q = data (q - pos)) ∧
        ∀ q, ¬(pos ≤ q ∧ q < pos + r.2) → ¬Exempt (pos + r.2) (rest - r.2) q →
          fileByte v'.disk r.1 q = fileByte v.disk nd q)
      (WriteStuck ino (pos / 4096) ((pos + rest + 4095) / 4096)
        (Asked v nd ((pos + 4095) / 4096) ((pos + rest) / 4096)) v nd) := by
  have hl : pos / 4096 + 16 ≤ maxLogical := by unfold maxLogical; omega
  refine .branch (fun hwhole => ?_) (fun hpart => ?_)
  · have hwin : ∀ l n, Only (pos / 4096) (min (areaLeft (pos / 4096)) (min (rest / 4096) 16)) l n →
        Asked v nd ((pos + 4095) / 4096) ((pos + rest) / 4096) l n := by
      rintro l n ⟨rfl, rfl⟩
      rw [show (pos + 4095) / 4096 = pos / 4096 by omega]
      refine ⟨⟨by omega, by omega, ?_⟩, .start⟩
      rw [show rest / 4096 = (pos + rest) / 4096 - pos / 4096 by omega]
    refine (writeWholeBlocks_post hv h (by omega) (by omega) (by omega) data).mono ?_
      fun _ _ he => he.mono hv h (by omega) hwin
    rintro ⟨nd', wrote⟩ v' ⟨m, h1, h2, h3, hfill, hwhole, hlong, hstop, hin, hout⟩
    have hw : wrote = m * 4096 := h3
    have hpos : 4096 * (pos / 4096) = pos := by omega
    refine ⟨by simp only [hw]; omega, by simp only [hw]; omega,
      hfill.mono (le_refl _) (by omega), ?_, ?_, fun q hq1 hq2 => ?_, fun q hq hex => ?_⟩
    · simp only [hw]
      exact fun k hk1 hk2 => hwhole k hk1 (by omega)
    · simp only [hw]
      rw [show (pos + m * 4096 + 4095) / 4096 = pos / 4096 + m by omega,
        show (pos + 4095) / 4096 = pos / 4096 by omega]
      obtain hmax | ⟨harea, hhole⟩ | hne := hstop
      · by_cases h16 : m = 16
        · exact .inl (.far (by omega) (hlong h16))
        · exact .inr (.inl (by omega))
      · exact .inl (harea ▸ .area .start hhole)
      · exact .inr (.inr hne)
    · simp only [hw] at hq2
      rw [hin q (by omega) (by omega), hpos]
    · simp only [hw] at hq hex
      refine hout q fun hc => ?_
      unfold Exempt at hex
      omega
  · refine (writePartBlock_post hv h (by omega) (by omega) data).mono ?_
      fun _ _ he => he.mono hv h (by omega) fun _ _ hW => hW
    rintro ⟨nd', _⟩ v' ⟨rfl, hfill, hwhole, hbytes⟩
    refine ⟨by dsimp only; omega, by dsimp only; omega, hfill.mono (le_refl _) (by omega),
      fun k hk1 hk2 => hwhole k hk1 (by dsimp only at hk2; omega), ?_, fun q hq1 hq2 => ?_,
      fun q hq _ => ?_⟩
    · by_cases hend : rest ≤ 4096 - pos % 4096
      · exact .inr (.inl (by dsimp only; omega))
      · rw [show (pos + _ + 4095) / 4096 = (pos + 4095) / 4096 by dsimp only; omega]
        exact .inl .start
    · dsimp only at hq2
      have hoff : q % 4096 - pos % 4096 = q - pos := by omega
      rw [hbytes, if_pos (by omega), hoff]
    · dsimp only at hq
      rw [hbytes, if_neg (by omega)]

/-- Induction on the fuel: a stale block mapped by one turn lies in the range the
remaining turns write, so nothing outside the range changes. -/
theorem writeLoop_post {offset len done : Nat} {data : Buf} (hv : Ready v) (h : Held v ino nd)
    (hend : offset + len ≤ 4294967296) (hdone : done ≤ len) (hfuel : len - done ≤ fuel) :
    Post (writeLoop offset len data fuel done nd) v (fun nd' v' =>
        Fills ino ((offset + done) / 4096) ((offset + len + 4095) / 4096) v nd v' nd' ∧
        Whole v'.disk nd' ((offset + done) / 4096) ((offset + len) / 4096) ∧
        ∀ q, fileByte v'.disk nd' q = if offset + done ≤ q ∧ q < offset + len then data (q - offset)
          else fileByte v.disk nd q)
      (WriteStuck ino ((offset + done) / 4096) ((offset + len + 4095) / 4096)
        (Asked v nd ((offset + done + 4095) / 4096) ((offset + len) / 4096)) v nd) := by
  induction fuel generalizing v nd done with
  | zero =>
    refine .ret ⟨.refl hv h, fun m h1 h2 => by omega, fun q => ?_⟩
    rw [if_neg (by omega)]
  | succ fuel ih =>
    refine .branch (fun hlt => ?_)
      (fun hge => .ret ⟨.refl hv h, fun m h1 h2 => by omega, fun q => ?_⟩)
    · have hsum : offset + done + (len - done) = offset + len := by omega
      refine .bind (writeChunk_post hv h (by omega) (by omega) (data.shift done))
        (fun _ _ he => he.mono hv h (by omega) (by rw [hsum]; exact fun _ _ hW => hW)) ?_
      rintro ⟨nd1, wrote⟩ v1 ⟨h1, h2, hfill, hwhole, hnext, hin, hout⟩
      simp only [Nat.add_assoc offset done wrote, hsum] at hwhole hnext
      have hfill := hfill.mono (le_refl _) (show _ ≤ (offset + len + 4095) / 4096 by omega)
      refine (ih hfill.ready hfill.held (by omega) (by omega)).mono ?_ fun _ _ he =>
        he.after hfill (by omega) (le_refl _) hwhole fun l n hln hfresh =>
          ⟨⟨by have := hln.1.1; omega, hln.1.2⟩, hln.2.after hfill.toFill.longRun
            (fun k hk => by_contra fun hne => hne ((hfill.keep _ hne).symm.trans hk)) (by omega) hnext
            hln.1.2.1 (hfresh (by have := areaLeft_pos l; have := hln.1; unfold Window at this; omega))⟩
      rintro nd' v' ⟨hfill', hwhole', hbytes⟩
      refine ⟨hfill.trans (hfill'.mono (by omega) (le_refl _)), hwhole.append hfill'.toFill hwhole',
        fun q => ?_⟩
      rw [hbytes]
      by_cases hq1 : offset + (done + wrote) ≤ q ∧ q < offset + len
      · rw [if_pos hq1, if_pos (by omega)]
      · rw [if_neg hq1]
        by_cases hq2 : offset + done ≤ q ∧ q < offset + done + wrote
        · have hsum : done + (q - (offset + done)) = q - offset := by omega
          rw [if_pos (by omega), hin q hq2.1 hq2.2]
          simp only [Buf.shift, hsum]
        · rw [if_neg (by omega)]
          refine hout q hq2 fun hex => ?_
          unfold Exempt at hex
          omega
    · rw [if_neg (by omega)]

end

end SmallOS.Ext2
