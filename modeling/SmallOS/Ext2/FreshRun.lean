import SmallOS.Ext2.Accounting

/-! Claiming a run of fresh data blocks. `inode_prepare_fresh_blocks` keeps a new pointer block as a
zeroed buffer and writes it once. Its steps are followed on the volume in which that buffer is
already on the device, since the later write hides the difference. -/

namespace SmallOS.Ext2

open Bytes Prog Ownership Support Function Finset Set

variable {buf : Buf} {nd' : Inode} {P b first i index indirect k logical n outer : Nat}
  {place : Nat → Slot} {p : Ptr} {s : Slot} {e : Fail} {v' v2 : Vol}

/-- The places `place 0`, ..., `place (n - 1)` were empty and hold the run from `first` on. -/
structure FreshRun (ino : Nat) (v : Vol) (nd : Inode) (v' : Vol) (nd' : Inode)
    (place : Nat → Slot) (first n : Nat) : Prop extends Grow ino v nd v' nd' where
  low : 36 ≤ first
  high : first + n ≤ 8192
  empty : ∀ i, i < n → tree v.disk nd (place i) = 0
  here : ∀ i, i < n → tree v'.disk nd' (place i) = first + i
  elsewhere : ∀ t, (∀ i, i < n → t ≠ place i) → tree v'.disk nd' t = tree v.disk nd t

structure Claims (ino : Nat) (v : Vol) (nd : Inode) (v' : Vol) (nd' : Inode)
    (place : Nat → Slot) (first n : Nat) : Prop extends
    FreshRun ino v nd v' nd' place first n where
  adds : Adds ino (fun s => ∃ i, i < n ∧ s = place i) v nd v' nd'

section

variable {ino : Nat} {v v1 : Vol} {nd nd1 : Inode} {S T : Slot → Prop} {W W' : Nat → Nat → Prop}

theorem setBlock_self (v : Vol) (b : Nat) : setBlock v b (v.disk b) = v := by
  simp only [setBlock, update_eq_self]

theorem setBlock_setBlock (v : Vol) (b : Nat) (x y : Buf) :
    setBlock (setBlock v b x) b y = setBlock v b y := by
  simp only [setBlock, update_idem]

theorem setBlock_comm (v : Vol) {c : Nat} (h : b ≠ c) (x y : Buf) :
    setBlock (setBlock v b x) c y = setBlock (setBlock v c y) b x := by
  simp only [setBlock, update_comm h]

theorem Allocated.withBlock (ha : Allocated v v1 first n) (hP : 4 ≤ P) (buf : Buf)
    (hused : usedBlock v P = true) : Allocated (setBlock v P buf) (setBlock v1 P buf) first n := by
  have hb := setBlock_bits (v := v) hP buf
  have hb1 := setBlock_bits (v := v1) hP buf
  have he1 := setBlock_effect ha.ready hP buf
  refine ⟨⟨he1.ready, ?_, fun c hc hout => ?_⟩, ha.low, ha.high, ?_, ?_, ?_⟩
  · exact ⟨ha.env.readFails, ha.env.writeFails, ha.env.ramdisk, ha.env.readOnly,
      ha.env.initialised, ha.env.deferDepth, ha.env.now⟩
  · by_cases hcP : c = P
    · subst hcP
      rw [setBlock_same, setBlock_same]
    · rw [setBlock_of_ne hcP, setBlock_of_ne hcP]
      exact ha.disk c hc hout
  · intro c h1 h2
    rw [hb.usedBlock]
    exact ha.free c h1 h2
  · intro c
    rw [hb.usedBlock, hb1.usedBlock]
    exact ha.used c
  · rw [hb.inodes, hb1.inodes]
    exact ha.inodes

theorem Allocated.fill (ha : Allocated v v1 b 1) (buf : Buf) :
    Allocated v (setBlock v1 b buf) b 1 := by
  have hlow := ha.low
  have hb := setBlock_bits (v := v1) (show 4 ≤ b by omega) buf
  have he := setBlock_effect ha.ready (show 4 ≤ b by omega) buf
  refine ⟨⟨he.ready, ha.env.trans he.env, fun c hc hout => ?_⟩, hlow, ha.high, ha.free, ?_, ?_⟩
  · rw [setBlock_of_ne (by omega)]
    exact ha.disk c hc hout
  · intro c
    rw [hb.usedBlock]
    exact ha.used c
  · exact hb.inodes.trans ha.inodes

theorem FreshRun.claims (h : FreshRun ino v nd v1 nd1 place first n) (hn : n ≠ 0)
    (hused : ∀ c, usedBlock v1 c = (decide (first ≤ c ∧ c < first + n) || usedBlock v c))
    (hcount : nd1.blocks512 = (nd.blocks512 + 8 * n) % 4294967296) :
    Claims ino v nd v1 nd1 place first n := by
  have hlow := h.low
  have hadded : added (tree v.disk nd) (tree v1.disk nd1) = place '' Finset.range n := by
    ext s
    simp only [added, mem_ofPred_eq, coe_range, Set.mem_image, Set.mem_Iio]
    constructor
    · rintro ⟨hs0, hs⟩
      by_contra hno
      exact hs ((h.elsewhere s fun i hi heq => hno ⟨i, hi, heq.symm⟩).trans hs0)
    · rintro ⟨i, hi, rfl⟩
      exact ⟨h.empty i hi, by rw [h.here i hi]; omega⟩
  have hinj : InjOn place (Finset.range n) := by
    intro i hi j hj heq
    have hij := h.here i (Finset.mem_range.mp hi)
    rw [heq, h.here j (Finset.mem_range.mp hj)] at hij
    omega
  refine ⟨h, h.toFill, fun s hs => ?_, fun c hc => ?_, ?_, fun hnone => ?_⟩
  · rw [hadded] at hs
    obtain ⟨i, hi, rfl⟩ := hs
    exact ⟨i, Finset.mem_range.mp hi, rfl⟩
  · rw [hused, Bool.or_eq_true, decide_eq_true_eq] at hc
    refine hc.symm.imp_right fun hin => ?_
    rw [hadded]
    refine ⟨_, ⟨c - first, mem_coe.mpr (Finset.mem_range.mpr (by omega)), rfl⟩, ?_⟩
    rw [h.here _ (by omega)]
    omega
  · rw [hadded, hinj.ncard_image, ncard_coe_finset, card_range, hcount]
  · rw [hadded, Set.image_eq_empty, coe_eq_empty, Finset.range_eq_empty_iff] at hnone
    exact absurd hnone hn

theorem Claims.intro (hn : n ≠ 0) (h : Held v ino nd) (writes : Writes v nd (DataLive v) v1) (fits : nd1.Fits)
    (used : ∀ c, usedBlock v1 c = (decide (first ≤ c ∧ c < first + n) || usedBlock v c))
    (free : ∀ c, first ≤ c → c < first + n → usedBlock v c = false)
    (low : 36 ≤ first) (high : first + n ≤ 8192) (empty : ∀ i, i < n → tree v.disk nd (place i) = 0)
    (here : ∀ i, i < n → tree v1.disk nd1 (place i) = first + i)
    (elsewhere : ∀ t, (∀ i, i < n → t ≠ place i) → tree v1.disk nd1 t = tree v.disk nd t)
    (sub : nd.Sub nd1) (attrs : SameAttrs nd nd1)
    (count : nd1.blocks512 = (nd.blocks512 + 8 * n) % 4294967296) :
    Claims ino v nd v1 nd1 place first n := by
  have new : ∀ t, tree v.disk nd t = 0 → tree v1.disk nd1 t ≠ 0 → ∃ i, i < n ∧ t = place i := by
    intro t ht hne
    by_contra hcon
    refine hne ((elsewhere t fun i hi heq => hcon ⟨i, hi, heq⟩).trans ht)
  refine FreshRun.claims ⟨Grow.intro h writes fits ?_ ?_ ?_ ?_ sub attrs,
    low, high, empty, here, elsewhere⟩ hn used count
  · intro c hc
    rw [used, hc, Bool.or_true]
  · intro s hs
    exact elsewhere s fun i hi heq => hs (heq ▸ empty i hi)
  · intro s h0 hs
    obtain ⟨i, hi, rfl⟩ := new s h0 hs
    rw [here i hi]
    have hin : first ≤ first + i ∧ first + i < first + n := by omega
    refine ⟨⟨by omega, by omega, ?_⟩, free _ hin.1 hin.2⟩
    rw [used]
    simp only [hin, and_self, decide_true, Bool.true_or]
  · intro s t hs0 ht0 hs heq
    obtain ⟨i, hi, rfl⟩ := new s hs0 hs
    obtain ⟨j, hj, rfl⟩ := new t ht0 (heq ▸ hs)
    rw [here i hi, here j hj] at heq
    rw [Nat.add_left_cancel heq]

def FreeRun (v : Vol) (n a : Nat) : Prop :=
  36 ≤ a ∧ a + n ≤ 8192 ∧ ∀ c, a ≤ c → c < a + n → usedBlock v c = false

def FreeRunAside (v : Vol) (n a : Nat) : Prop :=
  FreeRun v n a ∧ (a + n ≤ (searchFrom v).nextAllocBlock ∨ (searchFrom v).nextAllocBlock ≤ a)

def NoRun (v : Vol) (n : Nat) : Prop := ∀ a, ¬FreeRunAside v n a

theorem FreeRunAside.congr {w : Vol} (h : FreeRunAside v n b) (hused : ∀ c, usedBlock w c = usedBlock v c)
    (hhint : w.nextAllocBlock = v.nextAllocBlock) : FreeRunAside w n b := by
  have hsearch : (searchFrom w).nextAllocBlock = (searchFrom v).nextAllocBlock := by
    simp only [searchFrom_next, hhint]
  obtain ⟨⟨hlow, hhigh, hfree⟩, hside⟩ := h
  refine ⟨⟨hlow, hhigh, fun c hac hca => (hused c).trans (hfree c hac hca)⟩, ?_⟩
  rwa [hsearch]

theorem allocBlockRun_finds (hv : Ready v) {count : Nat} (hcount : count ≠ 0) :
    Post (allocBlockRun count) v
      (fun a _ => findFreeRun (blockBits v) count (searchFrom v).nextAllocBlock = some a)
      (fun _ _ => findFreeRun (blockBits v) count (searchFrom v).nextAllocBlock = none) := by
  unfold allocBlockRun
  rw [if_neg hcount]
  refine .bind_run (readBitmaps_run hv) (.bind_assign (.bind_get ?_))
  rw [show resetHint (loadBitmaps v) = searchFrom v from rfl, searchFrom_blockBitmap]
  cases hfind : findFreeRun (blockBits v) count (searchFrom v).nextAllocBlock with
  | none => exact .raise rfl
  | some a =>
    exact .bind_set (.bind_run (writeBlockBitmap_run (searchFrom_effect hv).ready _)
      (.bind_assign (.ret rfl)))

theorem allocBlockRun_ok_iff {count : Nat} (hv : Ready v) (hcount : count ≠ 0) :
    (∃ first v', allocBlockRun count v = .ok first v') ↔ ∃ a, FreeRunAside v count a := by
  have hhint := searchFrom_hint v
  have hpost := allocBlockRun_finds hv hcount
  constructor
  · rintro ⟨first, v', hrun⟩
    obtain ⟨hlow, hhigh, hside, hfree⟩ :=
      findFreeRun_eq_some hhint.1 hhint.2 (hpost.of_ok hrun)
    exact ⟨first, ⟨hlow, hhigh, hfree⟩, hside⟩
  · rintro ⟨a, ⟨hlow, hhigh, hfree⟩, hside⟩
    cases hrun : allocBlockRun count v with
    | ok first v' => exact ⟨first, v', rfl⟩
    | error e v' =>
      obtain ⟨c, hac, hca, hused⟩ := findFreeRun_eq_none (Nat.pos_of_ne_zero hcount) hhint.2
        (hpost.of_error hrun) a hlow hhigh hside
      cases hused.symm.trans (hfree c hac hca)

theorem allocBlockRun_noRun (hv : Ready v) {count : Nat} (hcount : count ≠ 0) :
    Post (allocBlockRun count) v (fun _ _ => ¬NoRun v count) (fun _ _ => NoRun v count) := by
  refine Post.of_result.mono (fun first v' hrun hno => ?_) fun e v' hrun a haside => ?_
  · obtain ⟨a, haside⟩ := (allocBlockRun_ok_iff hv hcount).mp ⟨first, v', hrun⟩
    exact hno a haside
  · obtain ⟨first, w, hok⟩ := (allocBlockRun_ok_iff hv hcount).mpr ⟨a, haside⟩
    cases hok.symm.trans hrun

/-- The tree can be filled up to a point where a block is needed and none is free, or where a run
for a window in `W` is needed and none is found. -/
def Stuck (ino : Nat) (S : Slot → Prop) (W : Nat → Nat → Prop) (v : Vol) (nd : Inode) : Prop :=
  ∃ v₁ nd₁, Adds ino S v nd v₁ nd₁ ∧ ((Full v₁ ∧ ∃ s, S s ∧ tree v₁.disk nd₁ s = 0) ∨
    ∃ l n, W l n ∧ (∀ i, i < n → tree v₁.disk nd₁ (dataSlot (l + i)) = 0) ∧ NoRun v₁ n)

theorem Stuck.of_full (hv : Ready v) (h : Held v ino nd) (hfull : Full v) (hs : S s)
    (h0 : tree v.disk nd s = 0) : Stuck ino S W v nd :=
  ⟨v, nd, .refl hv h, .inl ⟨hfull, s, hs, h0⟩⟩

theorem Stuck.after (ha : Adds ino S v nd v1 nd1) (h : Stuck ino S W v1 nd1) :
    Stuck ino S W v nd := by
  obtain ⟨v2, nd2, hadds, hend⟩ := h
  exact ⟨v2, nd2, ha.trans hadds, hend⟩

theorem Stuck.mono (h : Stuck ino S W v nd) (hST : ∀ s, S s → T s)
    (hW : ∀ l n, W l n → (n ≠ 0 → tree v.disk nd (dataSlot l) = 0) → W' l n) :
    Stuck ino T W' v nd := by
  obtain ⟨v2, nd2, hadds, ⟨hfull, s, hs, h0⟩ | ⟨l, n, hln, hempty, hno⟩⟩ := h
  · exact ⟨v2, nd2, hadds.mono hST, .inl ⟨hfull, s, hST s hs, h0⟩⟩
  · refine ⟨v2, nd2, hadds.mono hST, .inr ⟨l, n, hW l n hln fun hn => ?_, hempty, hno⟩⟩
    by_contra hne
    exact hne ((hadds.keep _ hne).symm.trans (hempty 0 (Nat.pos_of_ne_zero hn)))

theorem Lacks.stuck (h : Lacks ino S v nd e v') : Stuck ino S W v nd :=
  h.2.2.2.imp fun _ => Exists.imp fun _ ⟨hadds, hfull⟩ => ⟨hadds, .inl hfull⟩

def OnWay (logical n : Nat) (s : Slot) : Prop := ∃ i, i < n ∧ s ∈ way (logical + i)

theorem OnWay.data (hi : i < n) : OnWay logical n (dataSlot (logical + i)) :=
  ⟨i, hi, dataSlot_mem_way _⟩

theorem OnWay.head (hn : n ≠ 0) (hs : s ∈ way logical) : OnWay logical n s :=
  ⟨0, by omega, hs⟩

theorem OnWay.mono {l lo : Nat} (h : OnWay l n s) (hlo : lo ≤ l)
    (hhi : ∀ i, i < n → l + i < lo + k) : OnWay lo k s := by
  obtain ⟨i, hi, hs⟩ := h
  have := hhi i hi
  refine ⟨l + i - lo, by omega, ?_⟩
  rwa [show lo + (l + i - lo) = l + i by omega]

def Only (logical n l m : Nat) : Prop := l = logical ∧ m = n

theorem Stuck.of_noRun (ha : Adds ino S v nd v1 nd1)
    (hempty : ∀ i, i < n → tree v1.disk nd1 (dataSlot (logical + i)) = 0) (hno : NoRun v1 n) :
    Stuck ino S (Only logical n) v nd :=
  ⟨v1, nd1, ha, .inr ⟨logical, n, ⟨rfl, rfl⟩, hempty, hno⟩⟩

theorem readU32_writeU32s_entry {f : Nat → Nat} (hf : ∀ i, i < n → f i < 4294967296) (j : Nat) :
    readU32 (writeU32s buf (4 * index) f n) (4 * j) =
      if index ≤ j ∧ j < index + n then f (j - index) else readU32 buf (4 * j) := by
  split_ifs with h
  · obtain ⟨i, rfl⟩ := Nat.exists_eq_add_of_le h.1
    have hi : i < n := by omega
    rw [Nat.mul_add, readU32_writeU32s hi, Nat.add_sub_cancel_left, Nat.mod_eq_of_lt (hf i hi)]
  · exact readU32_writeU32s_of_disjoint (by omega)

theorem fillRun_claims (hleaf : p ≠ .double) (h : Held v ino nd) (hP : ptr v.disk nd p ≠ 0)
    (hpos : n ≠ 0) (hn : index + n ≤ 1024)
    (h0 : ∀ i, i < n → tree v.disk nd (.entry p (index + i)) = 0) (ha : Allocated v v1 first n) : Claims ino v nd (setBlock v1 (ptr v.disk nd p)
        (writeU32s (v.disk (ptr v.disk nd p)) (4 * index) (fun i => first + i) n))
      (nd.chargeBlocks n) (fun i => .entry p (index + i)) first n := by
  have hlow := ha.low
  have hhigh := ha.high
  have hP36 := h.ptr_ge hP
  have hptr : ∀ q, ptr v1.disk nd q = ptr v.disk nd q := by
    intro q
    rw [← tree_slot, ← tree_slot, ha.tree_eq h]
  have hone : ∀ q, ptr v1.disk nd q = ptr v1.disk nd p → q = p := by
    intro q hq
    rw [hptr, hptr] at hq
    exact (h.ptr_inj hP hq.symm).symm
  generalize hbuf : writeU32s (v.disk (ptr v.disk nd p)) (4 * index) (fun i => first + i) n = buf
  have htree := tree_setLeaf buf hleaf hone
  rw [hptr, ha.tree_eq h] at htree
  have hentry : ∀ j, j < 1024 → entryAt (update v1.disk (ptr v.disk nd p) buf) (ptr v.disk nd p) j =
      if index ≤ j ∧ j < index + n then first + (j - index) else tree v.disk nd (.entry p j) := by
    intro j hj
    have hcond : ¬(ptr v.disk nd p = 0 ∨ 1024 ≤ j) := by omega
    simp only [tree, entryAt, hcond, if_false, update_self, ← hbuf]
    exact readU32_writeU32s_entry (fun i hi => by omega) j
  have hP4 : 4 ≤ ptr v.disk nd p := by omega
  have hbits := setBlock_bits (v := v1) hP4 buf
  refine Claims.intro hpos h ((ha.writes nd).put (fun _ hc => hc.1) hP36 buf) (h.fits.chargeBlocks n)
    (fun c => (hbits.usedBlock c).trans (ha.used c)) ha.free hlow hhigh h0 ?_ ?_
    (Inode.Sub.refl nd) rfl rfl
  · intro i hi
    rw [tree_chargeBlocks]
    refine (htree _).trans ?_
    simp only [if_true]
    rw [hentry _ (by omega), if_pos (by omega)]
    omega
  · intro t ht
    rw [tree_chargeBlocks]
    refine (htree t).trans ?_
    cases t with
    | root k => rfl
    | entry q j =>
      simp only
      split_ifs with hq
      · subst hq
        by_cases hj : j < 1024
        · rw [hentry j hj, if_neg]
          intro hin
          refine ht (j - index) (by omega) ?_
          rw [Nat.add_sub_cancel' hin.1]
        · have hcond : ptr v.disk nd q = 0 ∨ 1024 ≤ j := by omega
          simp only [tree, entryAt, hcond, if_true]
      · rfl

theorem any_ne_zero_eq_false {f : Nat → Nat} (h : ¬(List.range n).any (fun i => f i != 0) = true) :
    ∀ i, i < n → f i = 0 := by
  intro i hi
  by_contra hne
  exact h (List.any_eq_true.mpr ⟨i, List.mem_range.mpr hi, by simpa using hne⟩)

theorem entry_eq_readU32 {j : Nat} (hP : ptr (setBlock v P buf).disk nd p = P)
    (hP0 : P ≠ 0) (hj : j < 1024) :
    tree (setBlock v P buf).disk nd (.entry p j) = readU32 buf (4 * j) := by
  have hcond : ¬(P = 0 ∨ 1024 ≤ j) := by omega
  simp only [tree, entryAt, hP, hcond, if_false, setBlock_same]

structure Loaded (ino : Nat) (v : Vol) (nd : Inode) (k : Nat) (v₁ : Vol) (nd₁ : Inode) (buf : Buf) :
    Prop where
  ready : Ready v₁
  placed : Placed ino v nd (setBlock v₁ (nd₁.block k) buf) nd₁ (.root k) (nd₁.block k) true
  cases : (nd.block k ≠ 0 ∧ nd₁ = nd ∧ v₁ = v ∧ buf = v.disk (nd.block k)) ∨
    (nd.block k = 0 ∧ buf = zeros ∧ Allocated v v₁ (nd₁.block k) 1)

structure Loads (ino : Nat) (v : Vol) (nd : Inode) (k : Nat) (v₁ : Vol) (nd₁ : Inode) (buf : Buf) :
    Prop extends Loaded ino v nd k v₁ nd₁ buf where
  adds : Adds ino (· = .root k) v nd (setBlock v₁ (nd₁.block k) buf) nd₁

theorem loadRootBlock_post (hv : Ready v) (h : Held v ino nd) (hk : k < 14) :
    Post (loadRootBlock nd k) v (fun r v1 => Loads ino v nd k v1 r.1 r.2)
      (Short v nd (.root k)) := by
  have hroot := tree_root v.disk nd hk
  refine .branch (fun h0 => ?_) (fun h0 => ?_)
  · refine .bind (allocBlockWithZero_post hv false)
      (fun e v' he => ⟨he.1, he.2.1, he.2.2, hroot.trans h0⟩) ?_
    rintro b v1 ⟨ha, _⟩
    have hlow := ha.low
    have hfill := ha.fill zeros
    obtain ⟨hg, ht⟩ := insertRoot_grow h hk h0 hfill fun _ => setBlock_same ..
    have hb : ((nd.setBlock k b).chargeBlocks 1).block k = b := Inode.setBlock_same nd k b
    have hplaced : Placed ino v nd _ _ (.root k) b true :=
      .of_update hg ht (by omega) fun _ => setBlock_same ..
    have hputs := hplaced.puts (hroot.trans h0) (fun c hc => hfill.used_or hc) rfl
    refine .ret ⟨⟨ha.ready, ?_, .inr ⟨h0, rfl, hb.symm ▸ ha⟩⟩, ?_⟩
    · simp only [hb]
      exact hplaced
    · simp only [hb]
      exact hputs.adds
  · have hlt : nd.block k < 8192 := hroot ▸ h.lt (.root k)
    have hp := Placed.of_present (s := .root k) hv h true (by rwa [hroot])
    rw [hroot] at hp
    refine .bind_run (query_run (readBlock_of_ready hv hlt)) (.ret ?_)
    refine ⟨⟨hv, ?_, .inl ⟨h0, rfl, rfl, rfl⟩⟩, ?_⟩
    · simp only [setBlock_self]
      exact hp
    · simp only [setBlock_self]
      exact .refl hv h

theorem Loaded.kept (hl : Loaded ino v nd k v1 nd1 buf) (hne : readU32 buf i ≠ 0) :
    nd1 = nd ∧ v1 = v := by
  obtain ⟨_, rfl, rfl, _⟩ | ⟨_, rfl, _⟩ := hl.cases
  · exact ⟨rfl, rfl⟩
  · simp at hne

theorem Allocated.leak (ha : Allocated v v1 first n) (h : Held v ino nd) : Grow ino v nd v1 nd :=
  Grow.of_tree h (ha.writes nd) (fun _ => ha.mono) (ha.tree_eq h)

structure DataRun (ino : Nat) (v : Vol) (nd : Inode) (v' : Vol) (nd' : Inode)
    (logical first n : Nat) : Prop extends Grow ino v nd v' nd' where
  low : 36 ≤ first
  high : first + n ≤ 8192
  empty : ∀ i, i < n → tree v.disk nd (dataSlot (logical + i)) = 0
  here : ∀ i, i < n → tree v'.disk nd' (dataSlot (logical + i)) = first + i
  elsewhere : ∀ m, ¬(logical ≤ m ∧ m < logical + n) →
    tree v'.disk nd' (dataSlot m) = tree v.disk nd (dataSlot m)
  pointers : ∀ p : Ptr, ¬p.Leads logical → ptr v'.disk nd' p = ptr v.disk nd p

theorem FreshRun.dataRun (h : FreshRun ino v nd v' nd' place first n)
    (hplace : ∀ i, i < n → place i = dataSlot (logical + i)) :
    DataRun ino v nd v' nd' logical first n := by
  refine ⟨h.toGrow, h.low, h.high, fun i hi => ?_, fun i hi => ?_, fun m hm => ?_, fun p _ => ?_⟩
  · rw [← hplace i hi]
    exact h.empty i hi
  · rw [← hplace i hi]
    exact h.here i hi
  · refine h.elsewhere _ fun i hi heq => hm ?_
    rw [hplace i hi] at heq
    have := dataSlot_inj heq
    omega
  · rw [← tree_slot, ← tree_slot]
    exact h.elsewhere _ fun i hi heq => dataSlot_ne_slot _ p ((hplace i hi).symm.trans heq.symm)

theorem Placed.then_dataRun (h : Placed ino v nd v1 nd1 p.slot P true) (hp : p.Leads logical)
    (k : DataRun ino v1 nd1 v' nd' logical first n) : DataRun ino v nd v' nd' logical first n := by
  have same : ∀ m, tree v1.disk nd1 (dataSlot m) = tree v.disk nd (dataSlot m) :=
    fun m => h.elsewhere _ (dataSlot_ne_slot m p)
  exact ⟨h.toGrow.trans k.toGrow, k.low, k.high, fun i hi => (same _).symm.trans (k.empty i hi),
    k.here, fun m hm => (k.elsewhere m hm).trans (same m),
    fun q hq => (k.pointers q hq).trans (h.ptr_eq fun heq => hq (Ptr.slot_inj heq ▸ hp))⟩

/-- The failure that leaves a new pointer block linked with whatever it held before:
`indirect` is stored in the double-indirect block, and no run was found for it. -/
def Stale (v : Vol) (nd : Inode) (logical : Nat) (v' : Vol) : Prop :=
  12 + 1024 ≤ logical ∧ nd.block 13 ≠ 0 ∧
    tree v.disk nd (.entry .double ((logical - 12 - 1024) / 1024)) = 0 ∧
    ∃ v₁ indirect, Allocated v v₁ indirect 1 ∧ v₁.disk indirect = v.disk indirect ∧
      Idle (putEntry v₁ (nd.block 13) ((logical - 12 - 1024) / 1024) indirect) v'

def RunFails (ino : Nat) (v : Vol) (nd : Inode) (logical : Nat) (e : Fail) (v' : Vol) : Prop :=
  e = .noBlock ∧ (Grow ino v nd v' nd ∨ Stale v nd logical v')

def RunResult (ino : Nat) (v : Vol) (nd : Inode) (logical maxBlocks : Nat)
    (r : Inode × Option (Nat × Nat)) (v' : Vol) : Prop :=
  match r.2 with
  | none => r.1 = nd ∧ v' = v
  | some (first, n) => 0 < n ∧ n ≤ maxBlocks ∧ DataRun ino v nd v' r.1 logical first n

def RunAdds (ino : Nat) (v : Vol) (nd : Inode) (logical n : Nat) (r : Inode × Option (Nat × Nat))
    (v' : Vol) : Prop :=
  match r.2 with
  | none => ∃ i, i < n ∧ tree v.disk nd (dataSlot (logical + i)) ≠ 0
  | some (_, m) => m = n ∧ Adds ino (OnWay logical n) v nd v' r.1

def Ran (ino : Nat) (v : Vol) (nd : Inode) (logical n : Nat) (r : Inode × Option (Nat × Nat))
    (v' : Vol) : Prop :=
  RunResult ino v nd logical n r v' ∧ RunAdds ino v nd logical n r v'

def RunStuck (ino : Nat) (v : Vol) (nd : Inode) (logical n : Nat) (e : Fail) (v' : Vol) : Prop :=
  RunFails ino v nd logical e v' ∧ Stuck ino (OnWay logical n) (Only logical n) v nd

/-- Entries of the pointer block `P`, which is in memory as `buf` while the tree of `v` has grown
to that of `v1` with `buf` in its place. -/
theorem fillEntries_post (hv : Ready v1) (hleaf : p ≠ .double)
    (h : Held (setBlock v1 P buf) ino nd1) (hP : ptr (setBlock v1 P buf).disk nd1 p = P)
    (hP0 : P ≠ 0) (h0 : n ≠ 0) (hn : index + n ≤ 1024)
    (hadds : Adds ino (OnWay logical n) v nd (setBlock v1 P buf) nd1)
    (hsame : ∀ m, tree (setBlock v1 P buf).disk nd1 (dataSlot m) = tree v.disk nd (dataSlot m))
    (hslot : ∀ i, i < n → dataSlot (logical + i) = .entry p (index + i))
    (hdone : ∀ {v' nd' first}, DataRun ino (setBlock v1 P buf) nd1 v' nd' logical first n →
      DataRun ino v nd v' nd' logical first n) (hskip : ∀ i, readU32 buf i ≠ 0 → nd1 = nd ∧ v1 = v)
    (hfail : ∀ v', Idle v1 v' → Grow ino v nd v' nd ∨ Stale v nd logical v') :
    Post (fillEntries nd1 P buf index n) v1 (Ran ino v nd logical n)
      (RunStuck ino v nd logical n) := by
  have hlive := h.ptr_live (p := p) (by rwa [hP])
  rw [hP] at hlive
  have hP36 := hlive.1
  have hPmax := hlive.2.1
  have hbits := setBlock_bits (v := v1) (show 4 ≤ P by omega) buf
  have hentry : ∀ i, i < n → tree (setBlock v1 P buf).disk nd1 (.entry p (index + i)) =
      readU32 buf (4 * (index + i)) := fun i hi => entry_eq_readU32 hP hP0 (by omega)
  refine .branch (fun hany => ?_) (fun hany => ?_)
  · obtain ⟨i, hi, hne⟩ := List.any_eq_true.mp hany
    have hi := List.mem_range.mp hi
    have hne : readU32 buf (4 * (index + i)) ≠ 0 := by simpa using hne
    exact Post.ret ⟨hskip _ hne, i, hi, by rwa [← hsame, hslot i hi, hentry i hi]⟩
  have hempty : ∀ i, i < n → tree (setBlock v1 P buf).disk nd1 (.entry p (index + i)) = 0 :=
    fun i hi => (hentry i hi).trans (any_ne_zero_eq_false hany i hi)
  refine .bind ((allocBlockRun_post hv h0).and (allocBlockRun_noRun hv h0)) ?_ ?_
  · rintro e v' ⟨⟨he, hidle⟩, hno⟩
    refine ⟨⟨he, hfail v' hidle⟩, .of_noRun hadds (fun i hi => ?_) fun a haside => ?_⟩
    · rw [hslot i hi]
      exact hempty i hi
    · exact hno a (haside.congr (fun c => (hbits.usedBlock c).symm) rfl)
  · rintro first v2 ⟨⟨ha, _⟩, _⟩
    have hused : usedBlock v1 P = true := (hbits.usedBlock P).symm.trans hlive.2.2
    have hfill := fillRun_claims hleaf h (by rwa [hP]) h0 hn hempty
      (ha.withBlock (show 4 ≤ P by omega) buf hused)
    rw [hP, setBlock_setBlock, setBlock_same] at hfill
    have hrun := hdone (hfill.dataRun fun i hi => (hslot i hi).symm)
    refine .bind_run (writeBlock_run ha.ready hPmax _)
      (.ret ⟨⟨Nat.pos_of_ne_zero h0, le_refl n, hrun⟩, rfl, hadds.trans (hfill.adds.mono ?_)⟩)
    rintro s ⟨i, hi, rfl⟩
    exact ⟨i, hi, hslot i hi ▸ dataSlot_mem_way _⟩

theorem directRun_claims (hpos : n ≠ 0) (h : Held v ino nd) (hn : logical + n ≤ 12)
    (h0 : ∀ i, i < n → nd.block (logical + i) = 0) (ha : Allocated v v1 first n) :
    Claims ino v nd v1 (Inode.chargeBlocks { nd with block := fun k =>
        if logical ≤ k ∧ k < logical + n then first + (k - logical) else nd.block k } n)
      (fun i => .root (logical + i)) first n := by
  have hlow := ha.low
  have hhigh := ha.high
  obtain ⟨nd', hnd'⟩ : ∃ nd', nd' = { nd with block := fun k =>
    if logical ≤ k ∧ k < logical + n then first + (k - logical) else nd.block k } := ⟨_, rfl⟩
  have hblock : ∀ k, nd'.block k =
      if logical ≤ k ∧ k < logical + n then first + (k - logical) else nd.block k := by
    intro k
    rw [hnd']
  have hfits : nd'.Fits := by
    have hf := h.fits
    refine hnd' ▸ { hf with block := fun k => ?_, blockEnd := fun k hk => ?_ }
    · simp only
      split_ifs
      · omega
      · exact hf.block k
    · simp only
      rw [if_neg (by omega)]
      exact hf.blockEnd k hk
  have hroot : ∀ k, tree v1.disk nd' (.root k) = if logical ≤ k ∧ k < logical + n then
      first + (k - logical) else tree v.disk nd (.root k) := by
    intro k
    rw [← ha.tree_eq h]
    simp only [tree, hblock]
    split_ifs with h14 hin hin <;> first | rfl | omega
  have hentry : ∀ p i, tree v1.disk nd' (.entry p i) = tree v.disk nd (.entry p i) := by
    intro p i
    rw [← ha.tree_eq h]
    have h12 : nd'.block 12 = nd.block 12 := by rw [hblock, if_neg (by omega)]
    have h13 : nd'.block 13 = nd.block 13 := by rw [hblock, if_neg (by omega)]
    cases p <;> simp only [tree, ptr, h12, h13]
  rw [← hnd']
  refine Claims.intro hpos h (ha.writes nd) (hfits.chargeBlocks n) ha.used ha.free hlow hhigh ?_ ?_ ?_ ?_
    (by rw [hnd']; rfl) (by rw [hnd']; rfl)
  · intro i hi
    simp only [tree]
    rw [if_pos (by omega), h0 i hi]
  · intro i hi
    rw [tree_chargeBlocks, hroot, if_pos (by omega)]
    omega
  · intro t ht
    rw [tree_chargeBlocks]
    cases t with
    | root k =>
      rw [hroot, if_neg]
      intro hin
      refine ht (k - logical) (by omega) ?_
      rw [Nat.add_sub_cancel' hin.1]
    | entry p i => exact hentry p i
  · intro k
    change _ ∨ nd.block k = nd'.block k
    rw [hblock]
    split_ifs with hin
    · refine .inl ?_
      have := h0 (k - logical) (by omega)
      rwa [Nat.add_sub_cancel' hin.1] at this
    · exact .inr rfl

theorem prepareDirect_post (hv : Ready v) (h : Held v ino nd) (h0 : n ≠ 0) (hn : logical + n ≤ 12) :
    Post (if (List.range n).any (fun i => nd.block (logical + i) != 0) then pure (nd, none)
      else do
        let first ← allocBlockRun n
        let nd' := { nd with block := fun k =>
          if logical ≤ k ∧ k < logical + n then first + (k - logical) else nd.block k }
        pure (nd'.chargeBlocks n, some (first, n))) v
      (Ran ino v nd logical n) (RunStuck ino v nd logical n) := by
  have hslot : ∀ i, i < n → dataSlot (logical + i) = .root (logical + i) :=
    fun i hi => dataSlot_direct (by omega)
  have hblock : ∀ i, i < n → tree v.disk nd (dataSlot (logical + i)) = nd.block (logical + i) := by
    intro i hi
    rw [hslot i hi, tree_root _ _ (by omega)]
  refine .branch (fun hany => ?_) (fun hany => ?_)
  · obtain ⟨i, hi, hne⟩ := List.any_eq_true.mp hany
    have hi := List.mem_range.mp hi
    exact Post.ret ⟨⟨rfl, rfl⟩, i, hi, by rw [hblock i hi]; simpa using hne⟩
  have hempty : ∀ i, i < n → nd.block (logical + i) = 0 := any_ne_zero_eq_false hany
  refine .bind ((allocBlockRun_post hv h0).and (allocBlockRun_noRun hv h0)) ?_ ?_
  · rintro e v' ⟨⟨he, hidle⟩, hno⟩
    exact ⟨⟨he, .inl (hidle.grow h)⟩,
      .of_noRun (.refl hv h) (fun i hi => (hblock i hi).trans (hempty i hi)) hno⟩
  · rintro first v1 ⟨⟨ha, _⟩, _⟩
    have hrun := directRun_claims h0 h hn hempty ha
    refine .ret ⟨⟨Nat.pos_of_ne_zero h0, le_refl n, hrun.dataRun fun i hi => (hslot i hi).symm⟩, rfl,
      hrun.adds.mono ?_⟩
    rintro s ⟨i, hi, rfl⟩
    exact ⟨i, hi, hslot i hi ▸ dataSlot_mem_way _⟩

theorem Loaded.grow_of_fail (hl : Loaded ino v nd k v1 nd1 buf)
    (h : Held v ino nd) (hi : Idle v1 v') : Grow ino v nd v' nd := by
  obtain ⟨_, _, rfl, _⟩ | ⟨_, _, ha⟩ := hl.cases
  · exact hi.grow h
  · have hleak := ha.leak h
    exact hleak.trans (hi.grow hleak.held)

theorem prepareSingle_post (hv : Ready v) (h : Held v ino nd) (h0 : n ≠ 0)
    (hlow : 12 ≤ logical) (hn : logical - 12 + n ≤ 1024) :
    Post (do
        let (nd, buf) ← loadRootBlock nd 12
        fillEntries nd (nd.block 12) buf (logical - 12) n) v
      (Ran ino v nd logical n) (RunStuck ino v nd logical n) := by
  have hlead : Ptr.single.Leads logical := ⟨by omega, by omega⟩
  refine .bind (loadRootBlock_post hv h (by decide)) ?_ ?_
  · rintro e v' ⟨he, hi, hfull, hroot⟩
    exact ⟨⟨he, .inl (hi.grow h)⟩, .of_full hv h hfull (OnWay.head h0 hlead.mem_way) hroot⟩
  rintro ⟨nd1, buf⟩ v1 hl
  exact fillEntries_post hl.ready (p := .single) (by simp) hl.placed.held rfl hl.placed.nonzero h0 hn
    (hl.adds.mono fun s hs => hs ▸ OnWay.head h0 hlead.mem_way)
    (fun m => hl.placed.elsewhere _ (dataSlot_ne_slot m .single))
    (fun i hi => by
      rw [dataSlot_single (by omega) (by omega), show logical + i - 12 = logical - 12 + i by omega])
    (Placed.then_dataRun (p := .single) hl.placed hlead) (fun i => hl.kept)
    fun v' hi => .inl (hl.grow_of_fail h hi)

theorem dataSlot_outer {i : Nat} (hlow : 12 + 1024 ≤ logical)
    (houter : (logical - 12 - 1024) / 1024 = outer)
    (hindex : (logical - 12 - 1024) % 1024 = index) (hin : index + i < 1024) :
    dataSlot (logical + i) = .entry (.outer outer) (index + i) := by
  subst houter hindex
  have hq : (logical + i - 12 - 1024) / 1024 = (logical - 12 - 1024) / 1024 := by omega
  have hr : (logical + i - 12 - 1024) % 1024 = (logical - 12 - 1024) % 1024 + i := by omega
  rw [dataSlot_double (by omega) (by omega), hq, hr]

theorem Loaded.link (hl : Loaded ino v nd 13 v1 nd1 buf)
    (ho : outer < 1024) (h0 : readU32 buf (4 * outer) = 0) (ha : Allocated v1 v2 indirect 1) :
    Puts ino (setBlock v1 (nd1.block 13) buf) nd1
      (setBlock (setBlock v2 (nd1.block 13) (writeU32 buf (4 * outer) indirect)) indirect zeros)
      (nd1.chargeBlocks 1) (.entry .double outer) indirect true := by
  have hlow := ha.low
  have hD0 : nd1.block 13 ≠ 0 := hl.placed.nonzero
  have hlive := hl.placed.held.ptr_live (p := .double) hD0
  have hD4 : 4 ≤ nd1.block 13 := le_trans (by decide) hlive.1
  have hDused : usedBlock v1 (nd1.block 13) = true :=
    ((setBlock_bits (v := v1) hD4 buf).usedBlock _).symm.trans hlive.2.2
  have hne : indirect ≠ nd1.block 13 := by have := ha.apart hDused; omega
  have hempty := (entry_eq_readU32 (v := v1) (p := .double) rfl hD0 ho).trans h0
  have ha' := (ha.withBlock hD4 buf hDused).fill zeros
  obtain ⟨hg, ht⟩ := insertEntry_grow (p := .double) hl.placed.held hD0 ho hempty ha'
    fun _ => setBlock_same ..
  have hput : putEntry (setBlock (setBlock v2 (nd1.block 13) buf) indirect zeros) (nd1.block 13)
      outer indirect = setBlock (setBlock v2 (nd1.block 13) (writeU32 buf (4 * outer) indirect))
        indirect zeros := by
    rw [putEntry, setBlock_of_ne hne.symm, setBlock_same, setBlock_comm _ hne, setBlock_setBlock]
  change Grow _ _ _ (putEntry _ (nd1.block 13) outer indirect) _ at hg
  change tree (putEntry _ (nd1.block 13) outer indirect).disk _ = _ at ht
  rw [hput] at hg ht
  refine (Placed.of_update hg ht (by omega) fun _ => setBlock_same ..).puts hempty (fun c hc => ?_) rfl
  rw [(setBlock_bits (show 4 ≤ indirect by omega) _).usedBlock,
    (setBlock_bits hD4 _).usedBlock] at hc
  rw [(setBlock_bits hD4 _).usedBlock]
  exact ha.used_or hc

theorem Loaded.fails (hl : Loaded ino v nd 13 v1 nd1 buf) (h : Held v ino nd)
    (hlow : 12 + 1024 ≤ logical) (houter : (logical - 12 - 1024) / 1024 = outer)
    (hout : outer < 1024) (h0 : readU32 buf (4 * outer) = 0) (ha : Allocated v1 v2 indirect 1)
    (hsame : v2.disk indirect = v1.disk indirect)
    (hi : Idle (setBlock v2 (nd1.block 13) (writeU32 buf (4 * outer) indirect)) v') :
    Grow ino v nd v' nd ∨ Stale v nd logical v' := by
  obtain ⟨hne, rfl, rfl, rfl⟩ | ⟨_, rfl, hD⟩ := hl.cases
  · subst houter
    refine .inr ⟨hlow, hne, ?_, v2, indirect, ha, hsame, ?_⟩
    · have hcond : ¬(nd1.block 13 = 0 ∨ 1024 ≤ (logical - 12 - 1024) / 1024) := by omega
      simp only [tree, ptr, entryAt, hcond, if_false]
      exact h0
    · have hD : v2.disk (nd1.block 13) = v1.disk (nd1.block 13) :=
        ha.data (h.ptr_live (p := .double) hne)
      rw [putEntry, hD]
      exact hi
  · -- the double-indirect block is new as well, so the inode on the device does not reach it
    have hD36 := hD.low
    have hDused : usedBlock v1 (nd1.block 13) = true := (hD.live (i := 0) (by omega)).2.2
    have hleak := (hD.fill (writeU32 zeros (4 * outer) indirect)).leak h
    have hleak' := (ha.withBlock (by omega)
      (writeU32 zeros (4 * outer) indirect) hDused).leak hleak.held
    exact .inl ((hleak.trans hleak').trans (hi.grow hleak'.held))

theorem prepareDouble_post (hv : Ready v) (h : Held v ino nd) (h0 : n ≠ 0)
    (hlow : 12 + 1024 ≤ logical) (houter : (logical - 12 - 1024) / 1024 = outer)
    (hindex : (logical - 12 - 1024) % 1024 = index) (hout : outer < 1024) (hn : index + n ≤ 1024) :
    Post (do
        let (nd, buf) ← loadRootBlock nd 13
        let indirect := readU32 buf (4 * outer)
        if indirect = 0 then do
          let indirect ← allocBlockUninit
          let nd := nd.chargeBlocks 1
          writeBlock (nd.block 13) (writeU32 buf (4 * outer) indirect)
          fillEntries nd indirect zeros index n
        else do
          let buf ← query (readBlock · indirect) Fail.device
          fillEntries nd indirect buf index n) v
      (Ran ino v nd logical n) (RunStuck ino v nd logical n) := by
  have hlead : Ptr.double.Leads logical := hlow
  have hlead' : (Ptr.outer outer).Leads logical := ⟨hlow, houter⟩
  have hslot : ∀ i, i < n → dataSlot (logical + i) = .entry (.outer outer) (index + i) :=
    fun i hi => dataSlot_outer hlow houter hindex (by omega)
  refine .bind (loadRootBlock_post hv h (by decide)) ?_ ?_
  · rintro e v' ⟨he, hi, hfull, hroot⟩
    exact ⟨⟨he, .inl (hi.grow h)⟩, .of_full hv h hfull (OnWay.head h0 hlead.mem_way) hroot⟩
  rintro ⟨nd1, buf⟩ v1 (hl : Loads ino v nd 13 v1 nd1 buf)
  have hadds := hl.adds.mono (T := OnWay logical n) fun s hs => hs ▸ OnWay.head h0 hlead.mem_way
  have hD0 : nd1.block 13 ≠ 0 := hl.placed.nonzero
  have hD4 : 4 ≤ nd1.block 13 :=
    le_trans (by decide) (hl.placed.held.ptr_ge (p := .double) hD0)
  refine .branch (fun hzero => ?_) (fun hsome => ?_)
  · refine .bind (allocBlockWithZero_post hl.ready false) ?_ ?_
    · rintro e v' ⟨he, hidle, hfull⟩
      refine ⟨⟨he, .inl (hl.grow_of_fail h hidle)⟩, (Stuck.of_full hl.placed.ready hl.placed.held
        (fun c h1 h2 => ?_) (OnWay.head h0 hlead'.mem_way) ?_).after hadds⟩
      · exact ((setBlock_bits hD4 buf).usedBlock c).trans (hfull c h1 h2)
      · exact (entry_eq_readU32 (p := .double) rfl hD0 hout).trans hzero
    rintro indirect v2 ⟨ha, hsame⟩
    have hDmax : nd1.block 13 < 8192 := hl.placed.held.ptr_lt .double
    have hlink := hl.link hout hzero ha
    have hX : ptr (setBlock (setBlock v2 (nd1.block 13) (writeU32 buf (4 * outer) indirect)) indirect
        zeros).disk (nd1.chargeBlocks 1) (.outer outer) = indirect := by
      rw [← tree_slot]
      exact hlink.here
    have hready := (setBlock_effect ha.ready hD4 (writeU32 buf (4 * outer) indirect)).ready
    refine .bind_run (writeBlock_run ha.ready hDmax _) ?_
    refine fillEntries_post hready (by simp) hlink.held hX hlink.nonzero h0 hn
      (hadds.trans (hlink.adds.mono fun s hs => hs ▸ OnWay.head h0 hlead'.mem_way))
      (fun m => (hlink.elsewhere _ (dataSlot_ne_slot m (.outer _))).trans
        (hl.placed.elsewhere _ (dataSlot_ne_slot m .double))) hslot
      (fun hrun => Placed.then_dataRun (p := .double) hl.placed hlead
        (Placed.then_dataRun (p := .outer _) hlink.toPlaced hlead' hrun))
      (fun i hne => by simp at hne) fun v' hi => hl.fails h hlow houter hout hzero ha hsame hi
  · obtain ⟨_, rfl, rfl, rfl⟩ | ⟨_, rfl, _⟩ := hl.cases
    · have hX : readU32 (v1.disk (nd1.block 13)) (4 * outer) = ptr v1.disk nd1 (.outer outer) := by
        have hcond : ¬(nd1.block 13 = 0 ∨ 1024 ≤ outer) := by omega
        simp only [ptr, entryAt, hcond, if_false]
      simp only [hX] at hsome ⊢
      have hmax := h.ptr_lt (.outer outer)
      have hself := setBlock_self v1 (ptr v1.disk nd1 (.outer outer))
      refine .bind_run (query_run (readBlock_of_ready hv hmax)) ?_
      refine fillEntries_post hv (by simp) (by rwa [hself]) (by rw [hself]) hsome h0 hn
        (by rw [hself]; exact .refl hv h) (fun m => by rw [hself]) hslot (fun hrun => ?_)
        (fun _ _ => ⟨rfl, rfl⟩) fun v' hi => .inl (hi.grow h)
      rwa [hself] at hrun
    · simp at hsome

def areaLeft (logical : Nat) : Nat :=
  if logical < 12 then 12 - logical
  else if logical - 12 < 1024 then 1024 - (logical - 12)
  else 1024 - (logical - 12 - 1024) % 1024

theorem areaLeft_pos (l : Nat) : 0 < areaLeft l := by
  unfold areaLeft
  split_ifs <;> omega

theorem areaLeft_mono {l m : Nat} (h : l ≤ m) : l + areaLeft l ≤ m + areaLeft m := by
  unfold areaLeft
  split_ifs <;> omega

theorem inodePrepareFreshBlocks_post (hv : Ready v) (h : Held v ino nd) {maxBlocks : Nat}
    (h0 : maxBlocks ≠ 0) (hl : logical < maxLogical) :
    Post (inodePrepareFreshBlocks nd logical maxBlocks) v
      (Ran ino v nd logical (min (areaLeft logical) maxBlocks))
      (RunStuck ino v nd logical (min (areaLeft logical) maxBlocks)) := by
  unfold maxLogical at hl
  unfold inodePrepareFreshBlocks areaLeft
  rw [if_neg h0]
  refine .branch (fun h12 => ?_) (fun h12 => .branch (fun h1024 => ?_) (fun h1024 => ?_))
  · rw [if_pos h12]
    exact prepareDirect_post hv h (by omega) (by omega)
  · rw [if_neg h12, if_pos h1024]
    exact prepareSingle_post hv h (by omega) (by omega) (by omega)
  · rw [if_neg h12, if_neg h1024]
    refine .branch (fun hbig => by omega) (fun hbig => ?_)
    exact prepareDouble_post hv h (by omega) (by omega) rfl rfl (by omega) (by omega)

end

end SmallOS.Ext2
