import SmallOS.Ext2.FileRefinement

/-! When a write finds room. A window of missing blocks is filled by one run of
consecutive blocks, and when there is no such run the write fails, however many blocks
are free. -/

namespace SmallOS.Ext2
open Bytes Prog Ownership Support List

variable {data : List UInt8} {c len n offset : Nat} {d : Nat → Buf} {s : Slot} {S : Slot → Prop}

def rangeLacks (d : Nat → Buf) (nd : Inode) (offset len : Nat) : Finset Slot :=
  lacking d nd (offset / 4096) ((offset + len + 4095) / 4096 - offset / 4096)

/-- A window that a write asks a run for: `n` whole blocks from `l` on, not more than 16 and in one
pointer block, and none of them is there. -/
def FreshWindow (v : Vol) (nd : Inode) (offset len l n : Nat) : Prop :=
  Asked v nd ((offset + 4095) / 4096) ((offset + len) / 4096) l n ∧
    ∀ i, i < n → tree v.disk nd (dataSlot (l + i)) = 0

section

variable {ino : Nat} {v v1 : Vol} {nd nd1 : Inode} {lo k : Nat}

theorem Held.weight_le (h : Held v ino nd) : weight (tree v.disk nd) ≤ 8192 :=
  Support.weight_le h.lt fun _ _ hs heq => h.inj hs heq

def Exact (d : Nat → Buf) (nd : Inode) : Prop := nd.blocks512 = 8 * weight (tree d nd)

theorem Adds.exact (h : Adds ino S v nd v1 nd1) (hexact : Exact v.disk nd) : Exact v1.disk nd1 := by
  have hle := h.held.weight_le
  have hweight := Extends.weight_eq h.keep h.held.finite
  unfold Exact at hexact ⊢
  rw [h.charged, hexact]
  omega

theorem Exact.putInode {nd' : Inode} (hexact : Exact v.disk nd) (hv : Ready v) (hi : ValidIno ino)
    (h : Held v ino nd) (hblock : nd'.block = nd.block) (hcount : nd'.blocks512 = nd.blocks512) :
    Exact (Ext2.putInode v ino nd').disk nd' := by
  unfold Exact at hexact ⊢
  rw [tree_of_block_eq hblock, tree_putInode hv hi h, hcount]
  exact hexact

theorem mem_lacking : s ∈ lacking d nd lo k ↔ OnWay lo k s ∧ tree d nd s = 0 := by
  simp only [lacking, Finset.mem_filter, Finset.mem_biUnion, Finset.mem_range, OnWay]

theorem Adds.lacking_card (h : Adds ino (OnWay lo k) v nd v1 nd1) :
    (lacking v.disk nd lo k).card = (lacking v1.disk nd1 lo k).card +
      (added (tree v.disk nd) (tree v1.disk nd1)).ncard := by
  have hsplit : (lacking v.disk nd lo k : Set Slot) =
      ↑(lacking v1.disk nd1 lo k) ∪ added (tree v.disk nd) (tree v1.disk nd1) := by
    ext s
    simp only [Set.mem_union, Finset.mem_coe, mem_lacking]
    constructor
    · rintro ⟨hs, h0⟩
      by_cases h1 : tree v1.disk nd1 s = 0
      · exact .inl ⟨hs, h1⟩
      · exact .inr ⟨h0, h1⟩
    · rintro (⟨hs, h1⟩ | hadd)
      · refine ⟨hs, ?_⟩
        by_contra h0
        exact h0 ((h.keep s h0).symm.trans h1)
      · exact ⟨h.within s hadd, hadd.1⟩
  rw [← Set.ncard_coe_finset, hsplit, ← Set.ncard_coe_finset]
  refine Set.ncard_union_eq (Set.disjoint_left.mpr fun s hs hadd => ?_) (Finset.finite_toSet _)
    (h.held.finite.subset (added_subset_support _ _))
  exact hadd.2 (mem_lacking.mp (Finset.mem_coe.mp hs)).2

theorem Adds.taken_card (h : Adds ino S v nd v1 nd1) :
    ((freeBlocks v).filter fun c => usedBlock v1 c = true).card =
      (added (tree v.disk nd) (tree v1.disk nd1)).ncard := by
  have himage : (((freeBlocks v).filter fun c => usedBlock v1 c = true : Finset Nat) : Set Nat) =
      tree v1.disk nd1 '' added (tree v.disk nd) (tree v1.disk nd1) := by
    ext c
    simp only [Finset.coe_filter, mem_freeBlocks, Set.mem_ofPred_eq]
    constructor
    · rintro ⟨⟨_, _, hfree⟩, hused⟩
      refine (h.taken c hused).resolve_left ?_
      rw [hfree]
      exact Bool.false_ne_true
    · rintro ⟨s, hs, rfl⟩
      obtain ⟨hlow, hhigh, hused⟩ := h.held.live hs.2
      exact ⟨⟨hhigh, hlow, h.toFill.fresh hs.1 hs.2⟩, hused⟩
  rw [← Set.ncard_coe_finset, himage]
  exact Set.InjOn.ncard_image fun s hs r _ heq => h.held.inj hs.2 heq

theorem Adds.free_card (h : Adds ino S v nd v1 nd1) : (freeBlocks v).card = (freeBlocks v1).card +
      (added (tree v.disk nd) (tree v1.disk nd1)).ncard := by
  have hrest : (freeBlocks v).filter (fun c => ¬usedBlock v1 c = true) = freeBlocks v1 := by
    ext c
    simp only [Finset.mem_filter, mem_freeBlocks, Bool.not_eq_true]
    refine ⟨fun ⟨⟨hhigh, hlow, _⟩, hfree⟩ => ⟨hhigh, hlow, hfree⟩, ?_⟩
    rintro ⟨hhigh, hlow, hfree⟩
    refine ⟨⟨hhigh, hlow, ?_⟩, hfree⟩
    by_contra hused
    rw [h.used c (by simpa using hused)] at hfree
    cases hfree
  rw [← h.taken_card, ← hrest, Nat.add_comm]
  exact (Finset.card_filter_add_card_filter_not _).symm

theorem NoRun.full {v : Vol} (h : NoRun v 1) : Full v := by
  intro c h1 h2
  by_contra hfree
  refine h c ⟨⟨h1, by omega, fun c' hlow hhigh => ?_⟩, by omega⟩
  rw [show c' = c by omega]
  simpa using hfree

theorem Adds.not_full (h : Adds ino (OnWay lo k) v nd v1 nd1)
    (hroom : (lacking v.disk nd lo k).card ≤ (freeBlocks v).card) (hs : OnWay lo k s)
    (h0 : tree v1.disk nd1 s = 0) : ¬Full v1 := by
  intro hfull
  have hnone : freeBlocks v1 = ∅ := by
    refine Finset.eq_empty_of_forall_notMem fun c hc => ?_
    obtain ⟨hhigh, hlow, hfree⟩ := mem_freeBlocks.mp hc
    rw [hfull c hlow hhigh] at hfree
    cases hfree
  have hlack := h.lacking_card
  have hfree := h.free_card
  rw [hnone, Finset.card_empty] at hfree
  have hpos : 0 < (lacking v1.disk nd1 lo k).card :=
    Finset.card_pos.mpr ⟨s, mem_lacking.mpr ⟨hs, h0⟩⟩
  omega

def dataSlots (l n : Nat) : Finset Slot := (Finset.range n).image fun i => dataSlot (l + i)

theorem mem_dataSlots {l : Nat} : s ∈ dataSlots l n ↔ ∃ i, i < n ∧ dataSlot (l + i) = s := by
  simp only [dataSlots, Finset.mem_image, Finset.mem_range]

theorem dataSlots_card (l n : Nat) : (dataSlots l n).card = n := by
  have hinj : Function.Injective fun i => dataSlot (l + i) :=
    fun i j heq => Nat.add_left_cancel (dataSlot_inj heq)
  rw [dataSlots, Finset.card_image_of_injective _ hinj, Finset.card_range]

theorem dataSlots_subset {l : Nat} (hempty : ∀ i, i < n → tree d nd (dataSlot (l + i)) = 0)
    (hlo : lo ≤ l) (hhi : l + n ≤ lo + k) : dataSlots l n ⊆ lacking d nd lo k := by
  intro s hs
  obtain ⟨i, hi, rfl⟩ := mem_dataSlots.mp hs
  exact mem_lacking.mpr ⟨(OnWay.data hi).mono hlo fun _ _ => by omega, hempty i hi⟩

section

variable (halign : offset % 4096 = 0)
  (hfresh : FreshWindow v nd offset len (offset / 4096) n)
  (honly : (rangeLacks v.disk nd offset len).card = n)
include halign hfresh honly

theorem FreshWindow.lacks_eq : rangeLacks v.disk nd offset len = dataSlots (offset / 4096) n := by
  obtain ⟨⟨⟨_, hlast, hn⟩, _⟩, hempty⟩ := hfresh
  refine (Finset.eq_of_subset_of_card_le (dataSlots_subset hempty (le_refl _) (by omega)) ?_).symm
  rw [dataSlots_card]
  exact honly.le

theorem FreshWindow.first {l m : Nat} (hm : 0 < m) (h : FreshWindow v nd offset len l m) :
    l = offset / 4096 ∧ m = n := by
  obtain ⟨⟨⟨hlow, hlast, hcount⟩, hasked⟩, hempty⟩ := h
  have hmem : dataSlot l ∈ rangeLacks v.disk nd offset len :=
    mem_lacking.mpr ⟨(OnWay.head (n := 1) (by decide) (dataSlot_mem_way l)).mono (by omega)
      fun _ _ => by omega, hempty 0 hm⟩
  rw [hfresh.lacks_eq halign honly] at hmem
  obtain ⟨i, hi, heq⟩ := mem_dataSlots.mp hmem
  have heq := dataSlot_inj heq
  obtain ⟨⟨⟨_, _, hn⟩, _⟩, _⟩ := hfresh
  rw [show (offset + 4095) / 4096 = offset / 4096 by omega] at hasked
  cases hasked with
  | start => exact ⟨rfl, hcount.trans hn.symm⟩
  | far hfar _ => omega
  | @area k hk _ =>
    have := areaLeft_mono hk.le
    omega

end

end

def FindsRun (v : Vol) (count : Nat) : Prop :=
  ((∃ first v', allocBlockRun count v = .ok first v') ↔ ∃ a, FreeRun v count a) ∧
    ∀ first v', allocBlockRun count v = .ok first v' → Allocated v v' first count

theorem block_run_found_iff {v : Vol} {count : Nat} (hv : Ready v) (hcount : 1 ≤ count) :
    FindsRun v count ↔ ((∃ a, FreeRun v count a) → ∃ a, FreeRunAside v count a) := by
  have h0 : count ≠ 0 := by omega
  unfold FindsRun
  rw [allocBlockRun_ok_iff hv h0]
  refine ⟨fun h => h.1.mpr, fun h => ⟨⟨fun aside => ?_, h⟩, fun first v' hrun => ?_⟩⟩
  · exact aside.imp fun _ free => free.1
  · exact ((allocBlockRun_post hv h0).of_ok hrun).1

def straddled : Vol :=
  { Sample.bare { oneFile with blocks := ⟨fun i => if i = 5 then 252 else 255⟩ } with
    nextAllocBlock := 41 }

theorem straddled_ready : Ready straddled := by
  constructor <;> simp [straddled, Sample.bare]

theorem block_run_found_single : FindsRun straddled 1 :=
  (block_run_found_iff straddled_ready (by decide)).mpr fun _ =>
    ⟨40, ⟨by decide, by decide, by decide⟩, .inl (by decide)⟩

theorem block_run_missed : ¬∀ (v : Vol) (count : Nat), Ready v → 1 ≤ count → FindsRun v count := by
  intro hall
  have hrun : ∃ a, FreeRun straddled 2 a := ⟨40, by decide, by decide, by decide⟩
  obtain ⟨first, v', hok⟩ := (hall straddled 2 straddled_ready (by decide)).1.mpr hrun
  have hnone : findFreeRun (blockBits straddled) 2 41 = none := by decide +kernel
  cases hnone.symm.trans ((allocBlockRun_finds straddled_ready (by decide)).of_ok hok)

end SmallOS.Ext2
