import SmallOS.Mem.FrameInvariant

/-! Which frames are free after booting. The usable entries of the firmware map are freed, rounded
inwards, and the ranges of the boot loader are marked again, rounded outwards. -/

namespace SmallOS.Mem

open Bytes List Nat

variable {b : BootInfo} {ent : E820Entry} {m : Nat} {mark : State → Nat → State}

def E820Entry.Covers (ent : E820Entry) (idx : Nat) : Prop :=
  ent.base.toNat ≤ idxToAddr idx ∧
    idxToAddr idx + pmmFrameSize ≤ ent.base.toNat + ent.length.toNat

def E820Entry.Meets (ent : E820Entry) (idx : Nat) : Prop :=
  ent.base.toNat < idxToAddr idx + pmmFrameSize ∧
    idxToAddr idx < ent.base.toNat + ent.length.toNat

def RangeMeets (r : Nat × Nat) (idx : Nat) : Prop :=
  r.1 < idxToAddr idx + pmmFrameSize ∧ idxToAddr idx < r.2

instance (ent : E820Entry) (idx : Nat) : Decidable (ent.Covers idx) :=
  inferInstanceAs (Decidable (_ ∧ _))

instance (ent : E820Entry) (idx : Nat) : Decidable (ent.Meets idx) :=
  inferInstanceAs (Decidable (_ ∧ _))

instance (r : Nat × Nat) (idx : Nat) : Decidable (RangeMeets r idx) :=
  inferInstanceAs (Decidable (_ ∧ _))

/-- Kernel image and heap, boot information, font, boot stack, framebuffer and ramdisk,
with their true ends. -/
def reservedRanges (b : BootInfo) : List (Nat × Nat) :=
  [(0x100000, b.heapTop.toNat), (0x90000, 0x90000 + bootInfoBytes), (0x91000, 0x91000 + 0x1000),
    (kernelBootStackTop - pmmFrameSize, kernelBootStackTop)] ++
  (if bootInfoFramebufferValid b then
    [(b.framebufferPhys.toNat,
      b.framebufferPhys.toNat + b.framebufferPitch.toNat * b.framebufferHeight.toNat)] else []) ++
  (if bootInfoRamdiskValid b then
    [(b.ramdiskPhys.toNat, b.ramdiskPhys.toNat + b.ramdiskSize.toNat)] else [])

def Usable (b : BootInfo) (idx : Nat) : Prop := ∃ ent ∈ b.entries, ent.type = 1 ∧ ent.Covers idx

section

variable {p : State} {idx : Nat}

theorem frameIsUsed_markIdxUsed (p : State) (i idx : Nat) :
    frameIsUsed (pmmMarkIdxUsed p i) idx = if idx = i then true else frameIsUsed p idx := by
  unfold pmmMarkIdxUsed setRefcount frameIsUsed
  by_cases hidx : idx = i
  · subst hidx
    by_cases hused : bitTest p.bitmap idx = true
    · simp only [hused, if_true]
      split_ifs <;> exact hused
    · simp only [hused, Bool.false_eq_true, if_false, if_true]
      split_ifs <;> exact bitSet_self _ _
  · simp only [hidx, if_false]
    split_ifs <;> first | rfl | exact bitSet_other _ hidx

theorem frameIsUsed_markIdxFree (p : State) (i idx : Nat) :
    frameIsUsed (pmmMarkIdxFree p i) idx = if idx = i then false else frameIsUsed p idx := by
  unfold pmmMarkIdxFree setRefcount frameIsUsed
  by_cases hidx : idx = i
  · subst hidx
    by_cases hused : bitTest p.bitmap idx = true
    · simp only [hused, if_true]
      exact bitClear_self _ _
    · simp [hused]
  · simp only [hidx, if_false]
    split_ifs <;> first | rfl | exact bitClear_other _ hidx

theorem frameIsUsed_markFrames {bit : Bool}
    (hmark : ∀ q i j, frameIsUsed (mark q i) j = if j = i then bit else frameIsUsed q j)
    {start stop : Nat} (hbase : pmmBase ≤ start) (hstart : start % 4096 = 0)
    (hstop : stop % 4096 = 0) (idx : Nat) : frameIsUsed (markFrames mark p start stop) idx =
      if start ≤ idxToAddr idx ∧ idxToAddr idx < stop then bit else frameIsUsed p idx := by
  have hloop : ∀ n, frameIsUsed ((range n).foldl
      (fun p k => mark p (addrToIdx (start + k * 4096))) p) idx =
      if start ≤ idxToAddr idx ∧ idxToAddr idx < start + n * 4096 then bit
      else frameIsUsed p idx := by
    intro n
    have halign : idxToAddr idx % 4096 = 0 := by
      unfold idxToAddr pmmFrameSize pmmBase
      omega
    induction n with
    | zero => rw [range_zero, foldl_nil, if_neg (by omega)]
    | succ n ih =>
      rw [range_succ, foldl_append, foldl_cons, foldl_nil, hmark, ih]
      have hidx : idx = addrToIdx (start + n * 4096) ↔ idxToAddr idx = start + n * 4096 := by
        unfold addrToIdx idxToAddr pmmFrameSize pmmBase at *
        omega
      rw [if_congr hidx rfl rfl]
      split_ifs <;> first | rfl | omega
  rw [markFrames, hloop]
  refine if_congr (and_congr_right fun _ => ?_) rfl rfl
  omega

theorem frameIsUsed_markRange {bit : Bool} {out c : Prop} [Decidable out] [Decidable c]
    (hmark : ∀ q i j, frameIsUsed (mark q i) j = if j = i then bit else frameIsUsed q j)
    {start stop : Nat} (hbase : ¬out → pmmBase ≤ start) (hstart : start % 4096 = 0)
    (hstop : stop % 4096 = 0) (hout : out → ¬c)
    (hin : ¬out → (c ↔ start ≤ idxToAddr idx ∧ idxToAddr idx < stop)) :
    frameIsUsed (if out then p else if stop ≤ start then p else markFrames mark p start stop) idx =
      if c then bit else frameIsUsed p idx := by
  by_cases h : out
  · rw [if_pos h, if_neg (hout h)]
  rw [if_neg h, if_congr (hin h) rfl rfl]
  by_cases hempty : stop ≤ start
  · rw [if_pos hempty, if_neg (by omega)]
  · rw [if_neg hempty, frameIsUsed_markFrames hmark (hbase h) hstart hstop]

theorem e820EntrySane_end (h : e820EntrySane ent = true) :
    ent.length ≠ 0 ∧ (ent.base + ent.length).toNat = ent.base.toNat + ent.length.toNat := by
  simp only [e820EntrySane, Bool.and_eq_true, bne_iff_ne, Bool.not_eq_true',
    decide_eq_false_iff_not, UInt64.lt_iff_toNat_lt, UInt64.toNat_add] at h
  obtain ⟨hlength, hwrap⟩ := h
  have hlen := ent.length.toNat_lt
  refine ⟨hlength, ?_⟩
  rw [UInt64.toNat_add]
  omega

section

variable {n : Nat} (h : AgreesOn n p) (hidx : idx < n)
include h hidx

theorem frameIsUsed_markRangeFree (start stop : Nat) :
    frameIsUsed (pmmMarkRangeFree p start stop) idx =
      if start ≤ idxToAddr idx ∧ idxToAddr idx + pmmFrameSize ≤ stop then false
      else frameIsUsed p idx := by
  obtain ⟨haligned, hlimit, hbase⟩ := h.agrees.aligned
  have htop := h.agrees.top
  have hcount := h.managed
  refine frameIsUsed_markRange frameIsUsed_markIdxFree ?_ ?_ ?_ ?_ ?_
  all_goals
    simp only [roundUpFrame, roundDownFrame, idxToAddr, pmmFrameSize, pmmBase] at *
    omega

theorem frameIsUsed_markRangeUsed (r : Nat × Nat) : frameIsUsed (pmmMarkRangeUsed p r.1 r.2) idx =
      if RangeMeets r idx then true else frameIsUsed p idx := by
  obtain ⟨haligned, hlimit, hbase⟩ := h.agrees.aligned
  have htop := h.agrees.top
  have hcount := h.managed
  refine frameIsUsed_markRange frameIsUsed_markIdxUsed ?_ ?_ ?_ ?_ ?_
  all_goals
    simp only [RangeMeets, roundUpFrame, roundDownFrame, idxToAddr, pmmFrameSize, pmmBase] at *
    omega

theorem frameIsUsed_freeE820Entry (hsane : e820EntrySane ent = true) :
    frameIsUsed (freeE820Entry p ent) idx =
      if ent.type = 1 ∧ ent.Covers idx then false else frameIsUsed p idx := by
  obtain ⟨hlength, hend⟩ := e820EntrySane_end hsane
  have htop := h.agrees.top
  have hcount := h.managed
  have haddr : idxToAddr idx = pmmBase + idx * pmmFrameSize := rfl
  have hcovers : ent.Covers idx ↔ ent.base.toNat ≤ idxToAddr idx ∧
      idxToAddr idx + pmmFrameSize ≤ ent.base.toNat + ent.length.toNat := Iff.rfl
  unfold freeE820Entry
  rw [hend]
  by_cases htype : ent.type = 1
  · rw [if_neg (by simp [htype, hlength]), if_congr (and_iff_right htype) rfl rfl]
    by_cases hout : ent.base.toNat + ent.length.toNat ≤ pmmBase ∨ p.maxPhys ≤ ent.base.toNat
    · rw [if_pos hout, if_neg]
      rw [hcovers]
      unfold pmmFrameSize pmmBase at *
      omega
    · rw [if_neg hout, frameIsUsed_markRangeFree h hidx]
      refine if_congr ?_ rfl rfl
      rw [hcovers]
      unfold pmmFrameSize pmmBase at *
      omega
  · rw [if_pos (.inl htype), if_neg fun hent => htype hent.1]

theorem free_of_usableRanges (ents : List E820Entry)
    (hsane : ∀ ent ∈ ents, e820EntrySane ent = true) :
    frameIsUsed (ents.foldl freeE820Entry p) idx = false ↔
      frameIsUsed p idx = false ∨ ∃ ent ∈ ents, ent.type = 1 ∧ ent.Covers idx := by
  induction ents generalizing p with
  | nil => simp
  | cons ent ents ih =>
    rw [foldl_cons, ih (freeE820Entry_agrees h ent) fun e he => hsane e (mem_cons_of_mem _ he),
      frameIsUsed_freeE820Entry h hidx (hsane ent mem_cons_self), exists_mem_cons_iff]
    split_ifs with hent
    · simp [hent]
    · simp [hent]

theorem free_of_markedRanges (ranges : List (Nat × Nat)) :
    frameIsUsed (ranges.foldl (fun p r => pmmMarkRangeUsed p r.1 r.2) p) idx = false ↔
      frameIsUsed p idx = false ∧ ∀ r ∈ ranges, ¬RangeMeets r idx := by
  induction ranges generalizing p with
  | nil => simp
  | cons r ranges ih =>
    rw [foldl_cons, ih (markRangeUsed_agrees h r.1 r.2), frameIsUsed_markRangeUsed h hidx, forall_mem_cons]
    split_ifs with hmeets
    · simp [hmeets]
    · simp [hmeets]

end

end

theorem BootInfo.entries_sane (hvalid : bootInfoE820Valid b = true) :
    ∀ ent ∈ b.entries, e820EntrySane ent = true := by
  exact all_eq_true.mp (Bool.and_eq_true_iff.mp hvalid).2

theorem pmmInit_free_iff (hvalid : bootInfoE820Valid b = true) {idx : Nat}
    (hidx : idx < (pmmInit b).managedFrames) : frameIsUsed (pmmInit b) idx = false ↔
      Usable b idx ∧ ∀ r ∈ bootRanges b, ¬RangeMeets r idx := by
  rw [(pmmInit_agrees b).managed] at hidx
  have hmeta : AgreesOn _ (pmmMetadataInit b) := ⟨metadataInit_agrees b, rfl⟩
  have hused : frameIsUsed (pmmMetadataInit b) idx ≠ false := by
    rw [show frameIsUsed (pmmMetadataInit b) idx = true from
      testBit_255 (mod_lt idx (by decide))]
    decide
  have hfreed : AgreesOn _ (pmmFreeE820UsableRanges (pmmMetadataInit b) b) :=
    foldlRecOn _ _ hmeta fun q hq ent _ => freeE820Entry_agrees hq ent
  have hinit : frameIsUsed (pmmInit b) idx = frameIsUsed (pmmReserveBootRanges
      (pmmFreeE820UsableRanges (pmmMetadataInit b) b) b) idx := by
    unfold pmmInit
    dsimp only
    rw [if_pos hvalid]
    rfl
  rw [hinit, pmmReserveBootRanges, free_of_markedRanges hfreed hidx,
    pmmFreeE820UsableRanges, free_of_usableRanges hmeta hidx _ (BootInfo.entries_sane hvalid)]
  exact and_congr_left fun _ => or_iff_right hused

theorem le_raiseMaxPhys (m : Nat) (ent : E820Entry) : m ≤ raiseMaxPhys m ent := by
  unfold raiseMaxPhys
  dsimp only
  split_ifs
  · exact le_refl m
  · exact le_refl m
  · exact le_refl m
  · exact le_max_left _ _

theorem raiseMaxPhys_reaches {idx : Nat} (hsane : e820EntrySane ent = true)
    (htype : ent.type = 1) (hcovers : ent.Covers idx) (hidx : idx < pmmNumFrames) :
    idxToAddr idx + pmmFrameSize ≤ raiseMaxPhys m ent := by
  obtain ⟨hlength, hend⟩ := e820EntrySane_end hsane
  obtain ⟨hlow, hhigh⟩ := hcovers
  unfold raiseMaxPhys
  rw [hend, if_neg (by simp [htype, hlength])]
  unfold idxToAddr pmmNumFrames pmmFrameSize pmmLimit pmmBase at *
  split_ifs <;> omega

theorem foldl_raiseMaxPhys_reaches {idx : Nat} {ents : List E820Entry}
    (hsane : ∀ ent ∈ ents, e820EntrySane ent = true) (hmem : ent ∈ ents)
    (htype : ent.type = 1) (hcovers : ent.Covers idx) (hidx : idx < pmmNumFrames) :
    idxToAddr idx + pmmFrameSize ≤ ents.foldl raiseMaxPhys m := by
  induction ents generalizing m with
  | nil => exact absurd hmem not_mem_nil
  | cons e ents ih =>
    rw [foldl_cons]
    rcases mem_cons.mp hmem with rfl | hmem
    · have hraised : ∀ (l : List E820Entry) (k : Nat), k ≤ l.foldl raiseMaxPhys k := fun l k =>
        foldlRecOn (motive := fun q => k ≤ q) l _ (le_refl k)
          fun q hq e _ => hq.trans (le_raiseMaxPhys q e)
      exact (raiseMaxPhys_reaches (hsane _ mem_cons_self) htype hcovers hidx).trans (hraised _ _)
    · exact ih (fun e he => hsane e (mem_cons_of_mem _ he)) hmem

theorem Usable.managed (hvalid : bootInfoE820Valid b = true) {idx : Nat}
    (h : Usable b idx) (hidx : idx < pmmNumFrames) : idx < (pmmInit b).managedFrames := by
  obtain ⟨ent, hmem, htype, hcovers⟩ := h
  have hfound := foldl_raiseMaxPhys_reaches (m := pmmBase) (BootInfo.entries_sane hvalid) hmem htype
    hcovers hidx
  have hcond : bootInfoE820Valid b = true ∧ pmmBase < b.entries.foldl raiseMaxPhys pmmBase := by
    refine ⟨hvalid, ?_⟩
    unfold idxToAddr pmmFrameSize at hfound
    omega
  have hmax : idxToAddr idx + pmmFrameSize ≤ pmmDetectMaxPhys b := by
    unfold pmmDetectMaxPhys
    dsimp only
    rw [if_pos hcond]
    unfold roundDownFrame idxToAddr pmmNumFrames pmmFrameSize pmmLimit pmmBase at *
    split_ifs <;> omega
  rw [(pmmInit_agrees b).managed]
  unfold pmmMetadataInit
  dsimp only
  split_ifs with hmany
  · exact hidx
  · unfold idxToAddr pmmFrameSize at *
    omega

/-- A frame of usable memory that an entry of another type touches is marked by the boot. -/
def NoOverlap (b : BootInfo) : Prop :=
  ∀ idx < pmmNumFrames, Usable b idx → ∀ ent ∈ b.entries, ent.type ≠ 1 → ent.Meets idx →
    ∃ r ∈ bootRanges b, RangeMeets r idx

/-- The ends computed with 32 bits lose no frame of usable memory. -/
def RangesFit (b : BootInfo) : Prop :=
  ∀ idx < pmmNumFrames, Usable b idx → ∀ r ∈ reservedRanges b, RangeMeets r idx →
    ∃ r ∈ bootRanges b, RangeMeets r idx

theorem reserved_of_marked {idx : Nat} {r : Nat × Nat} (hr : r ∈ bootRanges b)
    (hmeets : RangeMeets r idx) : ∃ r' ∈ reservedRanges b, RangeMeets r' idx := by
  have hbase : 0x200000 ≤ idxToAddr idx := Nat.le_add_right _ _
  have hlow : 0x200000 < r.2 := hbase.trans_lt hmeets.2
  unfold reservedRanges
  rcases mem_append.mp hr with hr | hr
  · rcases mem_append.mp hr with hr | hr
    · refine ⟨r, mem_append_left _ (mem_append_left _ ?_), hmeets⟩
      simp only [mem_cons, not_mem_nil, or_false] at hr ⊢
      rcases hr with rfl | rfl | rfl | hr | hr | hr | hr
      · exact absurd hlow (by decide)
      · exact absurd hlow (by decide)
      · exact absurd hlow (by decide)
      · exact .inr (.inl hr)
      · exact .inr (.inr (.inl hr))
      · exact .inr (.inr (.inr hr))
      · exact .inl hr
    · split_ifs at hr with hvalid
      · obtain rfl := mem_singleton.mp hr
        rw [if_pos hvalid]
        refine ⟨_, mem_append_left _ (mem_append_right _ mem_cons_self),
          hmeets.1, hmeets.2.trans_le ?_⟩
        exact (mod_le _ _).trans (Nat.add_le_add_left (mod_le _ _) _)
      · exact absurd hr not_mem_nil
  · split_ifs at hr with hvalid
    · obtain rfl := mem_singleton.mp hr
      rw [if_pos hvalid]
      refine ⟨_, mem_append_right _ mem_cons_self, hmeets.1, hmeets.2.trans_le ?_⟩
      exact mod_le _ _
    · exact absurd hr not_mem_nil

theorem rangesFit_of_ends (hframe : bootInfoFramebufferValid b = true → b.framebufferPhys.toNat +
      b.framebufferPitch.toNat * b.framebufferHeight.toNat < 2 ^ 32)
    (hdisk : bootInfoRamdiskValid b = true →
      b.ramdiskPhys.toNat + b.ramdiskSize.toNat < 2 ^ 32) : RangesFit b := by
  have hframe' : bootInfoFramebufferValid b = true →
      (b.framebufferPhys + b.framebufferPitch * b.framebufferHeight).toNat =
        b.framebufferPhys.toNat + b.framebufferPitch.toNat * b.framebufferHeight.toNat := by
    intro hvalid
    rw [UInt32.toNat_add, UInt32.toNat_mul, add_mod_mod, mod_eq_of_lt (hframe hvalid)]
  have hdisk' : bootInfoRamdiskValid b = true → (b.ramdiskPhys + b.ramdiskSize).toNat =
      b.ramdiskPhys.toNat + b.ramdiskSize.toNat := by
    intro hvalid
    rw [UInt32.toNat_add, mod_eq_of_lt (hdisk hvalid)]
  intro idx _ _ r hr hmeets
  refine ⟨r, ?_, hmeets⟩
  simp only [reservedRanges, bootRanges, mem_append, mem_cons, not_mem_nil, or_false] at hr ⊢
  rcases hr with (hr | hr) | hr
  · rcases hr with hr | hr | hr | hr <;> simp only [hr, true_or, or_true]
  · refine .inl (.inr ?_)
    split_ifs at hr ⊢ with hvalid
    · rwa [hframe' hvalid]
    · exact hr
  · refine .inr ?_
    split_ifs at hr ⊢ with hvalid
    · rwa [hdisk' hvalid]
    · exact hr

/-- The free frames are the frames of usable memory that nothing else claims, exactly when the
entries of other types stay clear of the usable ones and the reserved ranges fit in 32 bits. -/
theorem boot_frees_usable_memory (b : BootInfo) (hvalid : bootInfoE820Valid b = true) :
    (∀ idx < (pmmInit b).managedFrames, (frameIsUsed (pmmInit b) idx = false ↔ Usable b idx ∧
        (∀ ent ∈ b.entries, ent.type ≠ 1 → ¬ent.Meets idx) ∧
        ∀ r ∈ reservedRanges b, ¬RangeMeets r idx)) ↔ NoOverlap b ∧ RangesFit b := by
  constructor
  · intro h
    have clear : ∀ idx < pmmNumFrames, Usable b idx → (∀ r ∈ bootRanges b, ¬RangeMeets r idx) →
        (∀ ent ∈ b.entries, ent.type ≠ 1 → ¬ent.Meets idx) ∧
          ∀ r ∈ reservedRanges b, ¬RangeMeets r idx := fun idx hidx husable hnone =>
      have hmanaged := husable.managed hvalid hidx
      ((h idx hmanaged).mp ((pmmInit_free_iff hvalid hmanaged).mpr ⟨husable, hnone⟩)).2
    constructor
    · intro idx hidx husable ent hent htype hmeets
      by_contra hnone
      push Not at hnone
      exact (clear idx hidx husable hnone).1 ent hent htype hmeets
    · intro idx hidx husable r hr hmeets
      by_contra hnone
      push Not at hnone
      exact (clear idx hidx husable hnone).2 r hr hmeets
  · rintro ⟨hoverlap, hfit⟩ idx hmanaged
    have hidx : idx < pmmNumFrames := hmanaged.trans_le (pmmInit_agrees b).agrees.few
    rw [pmmInit_free_iff hvalid hmanaged]
    refine and_congr_right fun husable => ⟨fun hnone => ⟨?_, ?_⟩, fun hclear r hr hmeets => ?_⟩
    · intro ent hent htype hmeets
      obtain ⟨r, hr, hmarked⟩ := hoverlap idx hidx husable ent hent htype hmeets
      exact hnone r hr hmarked
    · intro r hr hmeets
      obtain ⟨r', hr', hmarked⟩ := hfit idx hidx husable r hr hmeets
      exact hnone r' hr' hmarked
    · obtain ⟨r', hr', hreserved⟩ := reserved_of_marked hr hmeets
      exact hclear.2 r' hr' hreserved

def bootMap (ents : List E820Entry) : BootInfo :=
  { magic := 0x534D4F53, version := 3, size := 832, e820Count := ents.length.toUInt32,
    e820Valid := 1, e820 := fun i => ents.getD i ⟨0, 0, 0⟩, framebufferValid := 0,
    framebufferPhys := 0, framebufferWidth := 0, framebufferHeight := 0, framebufferPitch := 0,
    framebufferBpp := 0, ramdiskPhys := 0, ramdiskSize := 0, ramdiskValid := 0,
    heapTop := 0x200000 }

/-- The firmware reserves a page in the middle of usable memory, and the page is free. -/
theorem reserved_page_is_free : ¬∀ b : BootInfo, bootInfoE820Valid b = true →
    ∀ idx < (pmmInit b).managedFrames, (frameIsUsed (pmmInit b) idx = false ↔ Usable b idx ∧
        (∀ ent ∈ b.entries, ent.type ≠ 1 → ¬ent.Meets idx) ∧
        ∀ r ∈ reservedRanges b, ¬RangeMeets r idx) := by
  intro h
  let b := bootMap [⟨0x200000, 0x200000, 1⟩, ⟨0x300000, 0x1000, 2⟩]
  have hvalid : bootInfoE820Valid b = true := by decide
  have husable : Usable b 256 := ⟨⟨0x200000, 0x200000, 1⟩, by simp [b, bootMap, BootInfo.entries,
    range_succ], rfl, by decide⟩
  have hmanaged := husable.managed hvalid (by decide)
  have hfree := (pmmInit_free_iff hvalid hmanaged).mpr ⟨husable, by decide⟩
  exact ((h b hvalid 256 hmanaged).mp hfree).2.1 ⟨0x300000, 0x1000, 2⟩
    (by simp [b, bootMap, BootInfo.entries, range_succ]) (by decide) (by decide)

theorem boot_frees_usable_memory_one_entry :
    bootInfoE820Valid (bootMap [⟨0x200000, 0x200000, 1⟩]) = true ∧
    ∀ idx < (pmmInit (bootMap [⟨0x200000, 0x200000, 1⟩])).managedFrames,
      (frameIsUsed (pmmInit (bootMap [⟨0x200000, 0x200000, 1⟩])) idx = false ↔
        Usable (bootMap [⟨0x200000, 0x200000, 1⟩]) idx ∧
        (∀ ent ∈ (bootMap [⟨0x200000, 0x200000, 1⟩]).entries, ent.type ≠ 1 → ¬ent.Meets idx) ∧
        ∀ r ∈ reservedRanges (bootMap [⟨0x200000, 0x200000, 1⟩]), ¬RangeMeets r idx) := by
  have hvalid : bootInfoE820Valid (bootMap [⟨0x200000, 0x200000, 1⟩]) = true := by decide
  refine ⟨hvalid, (boot_frees_usable_memory _ hvalid).mpr ⟨?_, ?_⟩⟩
  · intro idx _ _ ent hent htype
    obtain rfl : ent = ⟨0x200000, 0x200000, 1⟩ := mem_singleton.mp hent
    exact absurd rfl htype
  · exact rangesFit_of_ends (fun h => nomatch h) fun h => nomatch h

end SmallOS.Mem
