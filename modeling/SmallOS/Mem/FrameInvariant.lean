import SmallOS.Mem.Frames
import Mathlib.Order.Interval.Finset.Nat

/-! The bitmap, the reference counts and the free counter agree in every state that the
calls reach, and with them the searches for free frames are complete. -/

namespace SmallOS.Mem

open Bytes Function List Nat Finset

variable {count fuel i n start : Nat}

def freeFrames (p : State) : Finset Nat :=
  (Finset.range p.managedFrames).filter fun i => frameIsUsed p i = false

structure Agrees (p : State) : Prop where
  any : 0 < p.managedFrames
  few : p.managedFrames ≤ pmmNumFrames
  top : p.maxPhys = pmmBase + p.managedFrames * pmmFrameSize
  counts : ∀ i, i < p.managedFrames → (frameIsUsed p i = true ↔ p.refcount i ≠ 0)
  free : p.freeCount = (freeFrames p).card

section

variable {p q : State} {idx : Nat}

theorem mem_freeFrames : i ∈ freeFrames p ↔ i < p.managedFrames ∧ frameIsUsed p i = false := by
  rw [freeFrames, Finset.mem_filter, Finset.mem_range]

theorem Agrees.idx_lt (h : Agrees p) {addr : Nat} (low : pmmBase ≤ addr) (high : addr < p.maxPhys) :
    addrToIdx addr < p.managedFrames := by
  have := h.top
  unfold addrToIdx pmmFrameSize at *
  omega

structure Changed (p q : State) (idx : Nat) : Prop where
  managed : q.managedFrames = p.managedFrames
  top : q.maxPhys = p.maxPhys
  bits : ∀ i, i ≠ idx → frameIsUsed q i = frameIsUsed p i
  counts : ∀ i, i ≠ idx → q.refcount i = p.refcount i

section

variable (c : Changed p q idx)
include c

theorem Changed.freeFrames_erase (used : frameIsUsed q idx = true) :
    freeFrames q = (freeFrames p).erase idx := by
  ext i
  rw [mem_erase, mem_freeFrames, mem_freeFrames, c.managed]
  by_cases hi : i = idx
  · simp [hi, used]
  · simp [hi, c.bits i hi]

theorem Changed.freeFrames_insert (hidx : idx < p.managedFrames)
    (clear : frameIsUsed q idx = false) : freeFrames q = insert idx (freeFrames p) := by
  ext i
  rw [mem_insert, mem_freeFrames, mem_freeFrames, c.managed]
  by_cases hi : i = idx
  · simp [hi, clear, hidx]
  · simp [hi, c.bits i hi]

theorem Changed.agrees (h : Agrees p) (count : frameIsUsed q idx = true ↔ q.refcount idx ≠ 0)
    (free : q.freeCount = (freeFrames q).card) : Agrees q := by
  refine ⟨by rw [c.managed]; exact h.any, by rw [c.managed]; exact h.few,
    by rw [c.top, c.managed]; exact h.top, fun i hi => ?_, free⟩
  rw [c.managed] at hi
  by_cases heq : i = idx
  · rw [heq]
    exact count
  · rw [c.bits i heq, c.counts i heq]
    exact h.counts i hi

theorem Changed.take (h : Agrees p) (hfree : idx ∈ freeFrames p)
    (used : frameIsUsed q idx = true) (count : q.refcount idx ≠ 0)
    (free : q.freeCount = p.freeCount - 1) : Agrees q := by
  refine c.agrees h (by simp [used, count]) ?_
  rw [free, c.freeFrames_erase used, card_erase_of_mem hfree, h.free]

theorem Changed.give (h : Agrees p) (hidx : idx < p.managedFrames)
    (was : frameIsUsed p idx = true) (clear : frameIsUsed q idx = false)
    (count : q.refcount idx = 0) (free : q.freeCount = p.freeCount + 1) : Agrees q := by
  have hnot : idx ∉ freeFrames p := by simp [mem_freeFrames, was]
  refine c.agrees h (by simp [clear, count]) ?_
  rw [free, c.freeFrames_insert hidx clear, card_insert_of_notMem hnot, h.free]

end

theorem Agrees.recount (h : Agrees p) (was : frameIsUsed p idx = true) (hn : n ≠ 0) :
    Agrees (setRefcount p idx n) := by
  have c : Changed p (setRefcount p idx n) idx :=
    ⟨rfl, rfl, fun _ _ => rfl, fun i hi => update_of_ne hi _ _⟩
  have hcount : (setRefcount p idx n).refcount idx = n := update_self _ _ _
  refine c.agrees h ?_ h.free
  rw [hcount]
  exact ⟨fun _ => hn, fun _ => was⟩

theorem bitSet_self (b : Buf) (idx : Nat) : bitTest (bitSet b idx) idx = true := by
  simp [bitTest_bitSet]

theorem bitSet_other (b : Buf) (h : i ≠ idx) : bitTest (bitSet b idx) i = bitTest b i := by
  simp [bitTest_bitSet, h]

theorem bitClear_self (b : Buf) (idx : Nat) : bitTest (bitClear b idx) idx = false := by
  simp [bitTest_bitClear]

theorem bitClear_other (b : Buf) (h : i ≠ idx) : bitTest (bitClear b idx) i = bitTest b i := by
  simp [bitTest_bitClear, h]

section

variable (h : Agrees p) (hidx : idx < p.managedFrames)
include h hidx

theorem markIdxUsed_agrees : Agrees (pmmMarkIdxUsed p idx) := by
  unfold pmmMarkIdxUsed
  by_cases used : frameIsUsed p idx = true
  · have hcount := (h.counts idx hidx).mp used
    simp only [used, if_true, if_neg hcount]
    exact h
  · have hzero : p.refcount idx = 0 := by
      by_contra hne
      exact used ((h.counts idx hidx).mpr hne)
    simp only [if_neg used, hzero, if_true]
    refine Changed.take (p := p) ⟨rfl, rfl, fun i hi => bitSet_other _ hi,
      fun i hi => update_of_ne hi _ _⟩ h ?_ (bitSet_self _ _) ?_ rfl
    · exact mem_freeFrames.mpr ⟨hidx, by simpa using used⟩
    · exact (update_self idx 1 _).trans_ne (by decide)

theorem giveFrame_agrees
    (used : frameIsUsed p idx = true) (next : Nat) : Agrees { setRefcount p idx 0 with
      bitmap := bitClear p.bitmap idx, freeCount := p.freeCount + 1, nextFree := next } :=
  Changed.give (p := p) ⟨rfl, rfl, fun _ hi => bitClear_other _ hi,
    fun _ hi => update_of_ne hi _ _⟩ h hidx used (bitClear_self _ _)
    (update_self _ _ _) rfl

theorem markIdxFree_agrees : Agrees (pmmMarkIdxFree p idx) := by
  unfold pmmMarkIdxFree
  by_cases used : frameIsUsed p idx = true
  · simp only [used, if_true]
    exact giveFrame_agrees h hidx used _
  · have hzero : p.refcount idx = 0 := by
      by_contra hne
      exact used ((h.counts idx hidx).mpr hne)
    have hsame : setRefcount p idx 0 = p := by
      rw [setRefcount, ← hzero, update_eq_self]
    simp only [if_neg used, hsame]
    exact h

end

theorem managed_markIdxUsed (p : State) (idx : Nat) :
    (pmmMarkIdxUsed p idx).managedFrames = p.managedFrames := by
  unfold pmmMarkIdxUsed setRefcount
  dsimp only
  split_ifs <;> rfl

theorem managed_markIdxFree (p : State) (idx : Nat) :
    (pmmMarkIdxFree p idx).managedFrames = p.managedFrames := by
  unfold pmmMarkIdxFree setRefcount
  dsimp only
  split_ifs <;> rfl

theorem Agrees.aligned (h : Agrees p) : p.maxPhys % 4096 = 0 ∧ p.maxPhys ≤ 0x10000000 ∧
    pmmBase < p.maxPhys := by
  have htop := h.top
  have hany := h.any
  have hfew := h.few
  unfold pmmNumFrames pmmLimit pmmBase pmmFrameSize at *
  omega

structure AgreesOn (n : Nat) (p : State) : Prop where
  agrees : Agrees p
  managed : p.managedFrames = n

theorem markRange_agrees {mark : State → Nat → State} {stop : Nat} {out : Prop} [Decidable out]
    (h : AgreesOn n p) (agrees : ∀ q i, Agrees q → i < q.managedFrames → Agrees (mark q i))
    (managed : ∀ q i, (mark q i).managedFrames = q.managedFrames)
    (low : ¬out → pmmBase ≤ start) (high : stop ≤ p.maxPhys) :
    AgreesOn n (if out then p else if stop ≤ start then p else markFrames mark p start stop) := by
  split_ifs with hout
  · exact h
  · exact h
  have hlow := low hout
  refine foldlRecOn _ _ h fun q hq k hk => ?_
  have hk := List.mem_range.mp hk
  refine ⟨agrees q _ hq.agrees ?_, (managed q _).trans hq.managed⟩
  rw [hq.managed, ← h.managed]
  exact h.agrees.idx_lt (by omega) (by omega)

theorem markRangeFree_agrees (h : AgreesOn n p) (start stop : Nat) :
    AgreesOn n (pmmMarkRangeFree p start stop) := by
  obtain ⟨_, hlimit, hbase⟩ := h.agrees.aligned
  refine markRange_agrees h (fun q i => markIdxFree_agrees) managed_markIdxFree ?_ ?_
  all_goals
    simp only [roundUpFrame, roundDownFrame, pmmBase] at *
    omega

theorem markRangeUsed_agrees (h : AgreesOn n p) (start stop : Nat) :
    AgreesOn n (pmmMarkRangeUsed p start stop) := by
  obtain ⟨haligned, hlimit, hbase⟩ := h.agrees.aligned
  refine markRange_agrees h (fun q i => markIdxUsed_agrees) managed_markIdxUsed ?_ ?_
  all_goals
    simp only [roundUpFrame, roundDownFrame, pmmBase] at *
    omega

theorem freeE820Entry_agrees (h : AgreesOn n p) (ent : E820Entry) :
    AgreesOn n (freeE820Entry p ent) := by
  unfold freeE820Entry
  dsimp only
  split_ifs
  · exact h
  · exact h
  · exact markRangeFree_agrees h _ _

theorem detectMaxPhys_bounds (b : BootInfo) :
    pmmBase < pmmDetectMaxPhys b ∧ pmmDetectMaxPhys b % 4096 = 0 := by
  unfold pmmDetectMaxPhys
  dsimp only
  generalize min _ pmmLimit = found
  by_cases hlow : roundDownFrame found ≤ pmmBase
  · rw [if_pos hlow]
    unfold pmmFrameSize pmmBase
    omega
  · rw [if_neg hlow]
    unfold roundDownFrame at *
    omega

theorem metadataInit_agrees (b : BootInfo) : Agrees (pmmMetadataInit b) := by
  obtain ⟨hlow, haligned⟩ := detectMaxPhys_bounds b
  have hused : ∀ i, frameIsUsed (pmmMetadataInit b) i = true := fun i =>
    testBit_255 (mod_lt i (by decide))
  have hnone : freeFrames (pmmMetadataInit b) = ∅ := by
    refine eq_empty_of_forall_notMem fun i hi => ?_
    rw [mem_freeFrames, hused i] at hi
    cases hi.2
  refine ⟨?_, ?_, ?_, fun i _ => ⟨fun _ => Nat.one_ne_zero, fun _ => hused i⟩, ?_⟩
  · simp only [pmmMetadataInit]
    unfold pmmNumFrames pmmLimit pmmBase pmmFrameSize at *
    split_ifs <;> omega
  · simp only [pmmMetadataInit]
    split_ifs <;> omega
  · simp only [pmmMetadataInit]
    unfold pmmNumFrames pmmLimit pmmBase pmmFrameSize at *
    split_ifs <;> omega
  · rw [hnone]
    rfl

theorem pmmInit_agrees (b : BootInfo) : AgreesOn (pmmMetadataInit b).managedFrames (pmmInit b) := by
  have hmeta : AgreesOn _ (pmmMetadataInit b) := ⟨metadataInit_agrees b, rfl⟩
  have hfreed : AgreesOn (pmmMetadataInit b).managedFrames
      (if bootInfoE820Valid b then pmmFreeE820UsableRanges (pmmMetadataInit b) b
      else pmmFreeFixedRange (pmmMetadataInit b)) := by
    split_ifs
    · exact foldlRecOn _ _ hmeta fun q hq ent _ => freeE820Entry_agrees hq ent
    · exact markRangeFree_agrees hmeta _ _
  have hboot : AgreesOn _ (pmmReserveBootRanges _ b) :=
    foldlRecOn _ _ hfreed fun q hq r _ => markRangeUsed_agrees hq r.1 r.2
  unfold pmmInit
  dsimp only
  generalize pmmReserveBootRanges _ b = p at hboot ⊢
  obtain ⟨h, managed⟩ := hboot
  exact ⟨⟨h.any, h.few, h.top, h.counts, h.free⟩, managed⟩

theorem nextFreeFrame_some (h : Agrees p) (hfind : nextFreeFrame p fuel i = some idx) :
    idx ∈ freeFrames p := by
  induction fuel generalizing i with
  | zero => cases hfind
  | succ fuel ih =>
    simp only [nextFreeFrame] at hfind
    split_ifs at hfind with used
    · exact ih hfind
    · obtain rfl := Option.some.inj hfind
      exact mem_freeFrames.mpr ⟨mod_lt _ h.any, by simpa using used⟩

theorem nextFreeFrame_none (hfind : nextFreeFrame p fuel i = none) :
    ∀ j, i ≤ j → j < i + fuel → frameIsUsed p ((p.nextFree + j) % p.managedFrames) = true := by
  induction fuel generalizing i with
  | zero =>
    intro j hi hj
    omega
  | succ fuel ih =>
    simp only [nextFreeFrame] at hfind
    split_ifs at hfind with used
    intro j hi hj
    by_cases heq : j = i
    · rw [heq]
      exact used
    · exact ih hfind j (by omega) (by omega)

theorem walk_reaches (a : Nat) (hi : i < n) : ∃ j, j < n ∧ (a + j) % n = i := by
  have hr := mod_lt a (zero_lt_of_lt hi)
  by_cases hle : a % n ≤ i
  · refine ⟨i - a % n, by omega, ?_⟩
    rw [← mod_add_mod, Nat.add_sub_cancel' hle, mod_eq_of_lt hi]
  · refine ⟨i + n - a % n, by omega, ?_⟩
    rw [← mod_add_mod, Nat.add_sub_cancel' (by omega), add_mod_right, mod_eq_of_lt hi]

theorem freeFrames_of_none (hfind : nextFreeFrame p p.managedFrames 0 = none) :
    freeFrames p = ∅ := by
  refine eq_empty_of_forall_notMem fun i hi => ?_
  obtain ⟨hlt, hclear⟩ := mem_freeFrames.mp hi
  obtain ⟨j, hj, hturn⟩ := walk_reaches p.nextFree hlt
  have hused := nextFreeFrame_none hfind j (Nat.zero_le j) (by omega)
  rw [hturn] at hused
  cases hused.symm.trans hclear

structure FreeRun (p : State) (n start : Nat) : Prop where
  pos : 0 < n
  inside : start + n ≤ p.managedFrames
  clear : ∀ i, start ≤ i → i < start + n → frameIsUsed p i = false

theorem firstUsed_some {off : Nat} (h : firstUsed p start count = some off) :
    off < count ∧ frameIsUsed p (start + off) = true := by
  have hused := find?_some h
  exact ⟨List.mem_range.mp (mem_of_find?_eq_some h), hused⟩

theorem firstUsed_none (h : firstUsed p start count = none) :
    ∀ i, start ≤ i → i < start + count → frameIsUsed p i = false := by
  intro i hi hlt
  have := find?_eq_none.mp h (i - start) (List.mem_range.mpr (by omega))
  rw [Nat.add_sub_cancel' hi] at this
  simpa using this

theorem findRun_spec (hcount : 0 < count) :
    ∀ fuel start, p.managedFrames < start + fuel → (∀ t, t < start → ¬FreeRun p count t) →
      match findRun p count fuel start with
      | some s => IsLeast {t | FreeRun p count t} s
      | none => ∀ t, ¬FreeRun p count t := by
  intro fuel
  induction fuel with
  | zero =>
    intro start hfuel below t run
    exact below t (by have := run.inside; omega) run
  | succ fuel ih =>
    intro start hfuel below
    rw [findRun]
    split_ifs with hin
    · cases hused : firstUsed p start count with
      | some off =>
        obtain ⟨hoff, hbit⟩ := firstUsed_some hused
        refine ih (start + off + 1) (by omega) fun t ht run => ?_
        by_cases hlow : t < start
        · exact below t hlow run
        · -- the used frame is in every run that starts this far
          have hclear := run.clear (start + off) (by omega) (by omega)
          cases hbit.symm.trans hclear
      | none =>
        refine ⟨⟨hcount, hin, firstUsed_none hused⟩, fun t run => ?_⟩
        by_contra hlow
        exact below t (by omega) run
    · intro t run
      by_cases hlow : t < start
      · exact below t hlow run
      · have := run.inside
        omega

theorem FreeRun.subset (run : FreeRun p n start) : Finset.Ico start (start + n) ⊆ freeFrames p := by
  intro i hi
  obtain ⟨hlow, hhigh⟩ := mem_Ico.mp hi
  exact mem_freeFrames.mpr ⟨by have := run.inside; omega, run.clear i hlow hhigh⟩

theorem FreeRun.le_free (run : FreeRun p n start) (h : Agrees p) : n ≤ p.freeCount := by
  have := card_le_card run.subset
  rw [card_Ico, Nat.add_sub_cancel_left] at this
  rw [h.free]
  exact this

theorem takeRun_agrees (h : Agrees p) (run : FreeRun p n start) : Agrees (takeRun p start n) := by
  have hbit : ∀ i, frameIsUsed (takeRun p start n) i =
      (decide (start ≤ i ∧ i < start + n) || frameIsUsed p i) := bitTest_bitSetRun _ _ _
  have hfree : freeFrames (takeRun p start n) = freeFrames p \ Finset.Ico start (start + n) := by
    ext i
    rw [mem_sdiff, mem_freeFrames, mem_freeFrames, hbit, mem_Ico]
    by_cases hin : start ≤ i ∧ i < start + n
    · simp [hin]
    · simp [hin, takeRun]
  refine ⟨h.any, h.few, h.top, fun i hi => ?_, ?_⟩
  · rw [hbit]
    show _ ↔ (if start ≤ i ∧ i < start + n then 1 else p.refcount i) ≠ 0
    split_ifs with hin
    · simp [hin]
    · simp only [hin, decide_false, Bool.false_or]
      exact h.counts i hi
  · show p.freeCount - n = _
    rw [hfree, card_sdiff_of_subset run.subset, card_Ico, Nat.add_sub_cancel_left, h.free]

theorem pmmAllocFrame_cases (h : Agrees p) : (pmmAllocFrame p = (0, p) ∧ freeFrames p = ∅) ∨
      ∃ idx ∈ freeFrames p, (pmmAllocFrame p).1 = idxToAddr idx ∧ Agrees (pmmAllocFrame p).2 := by
  unfold pmmAllocFrame
  split_ifs with hzero
  · rw [h.free, Finset.card_eq_zero] at hzero
    exact .inl ⟨rfl, hzero⟩
  · cases hfind : nextFreeFrame p p.managedFrames 0 with
    | none => exact .inl ⟨rfl, freeFrames_of_none hfind⟩
    | some idx =>
      have hfree := nextFreeFrame_some h hfind
      refine .inr ⟨idx, hfree, rfl, ?_⟩
      exact Changed.take (p := p) ⟨rfl, rfl, fun i hi => bitSet_other _ hi,
        fun i hi => update_of_ne hi _ _⟩ h hfree (bitSet_self _ _)
        ((update_self idx 1 _).trans_ne (by decide)) rfl

theorem pmmAllocContiguousFrames_cases (h : Agrees p) (n : Nat) :
    (pmmAllocContiguousFrames p n = (0, p) ∧ ∀ t, ¬FreeRun p n t) ∨
      ∃ start, IsLeast {t | FreeRun p n t} start ∧
        pmmAllocContiguousFrames p n = (idxToAddr start, takeRun p start n) := by
  unfold pmmAllocContiguousFrames
  split_ifs with hrefused
  · refine .inl ⟨rfl, fun t run => ?_⟩
    have := run.pos
    have := run.inside
    have := run.le_free h
    omega
  · have hspec := findRun_spec (p := p) (show 0 < n by omega) (p.managedFrames + 1) 0 (by omega)
      fun t ht => absurd ht (Nat.not_lt_zero t)
    cases hfind : findRun p n (p.managedFrames + 1) 0 with
    | none =>
      rw [hfind] at hspec
      exact .inl ⟨rfl, hspec⟩
    | some start =>
      rw [hfind] at hspec
      exact .inr ⟨start, hspec, rfl⟩

theorem pmmRetainFrame_agrees (h : Agrees p) (addr : Nat) : Agrees (pmmRetainFrame p addr).2 := by
  unfold pmmRetainFrame
  dsimp only
  split_ifs with hout hclear hfull
  · exact h
  · exact h
  · exact h
  · exact h.recount (by simpa using hclear) (succ_ne_zero _)

theorem pmmReleaseFrame_agrees (h : Agrees p) (addr : Nat) : Agrees (pmmReleaseFrame p addr) := by
  unfold pmmReleaseFrame
  by_cases hout : addr < pmmBase ∨ p.maxPhys ≤ addr
  · rw [if_pos hout]
    exact h
  rw [if_neg hout]
  dsimp only
  by_cases hidle : (!frameIsUsed p (addrToIdx addr)) = true ∨ p.refcount (addrToIdx addr) = 0
  · rw [if_pos hidle]
    exact h
  obtain ⟨hclear, hzero⟩ := not_or.mp hidle
  have hused : frameIsUsed p (addrToIdx addr) = true := by simpa using hclear
  rw [if_neg hidle]
  by_cases hlast : p.refcount (addrToIdx addr) = 1
  · rw [if_pos hlast]
    exact giveFrame_agrees h (h.idx_lt (by omega) (by omega)) hused _
  · rw [if_neg hlast]
    exact h.recount hused (by omega)

theorem Call.run_agrees (h : Agrees p) (c : Call) : Agrees (c.run p) := by
  cases c with
  | alloc =>
    obtain ⟨heq, _⟩ | ⟨_, _, _, hnext⟩ := pmmAllocFrame_cases h
    · rw [Call.run, heq]
      exact h
    · exact hnext
  | allocContiguous n =>
    obtain ⟨heq, _⟩ | ⟨start, hleast, heq⟩ := pmmAllocContiguousFrames_cases h n
    · rw [Call.run, heq]
      exact h
    · rw [Call.run, heq]
      exact takeRun_agrees h hleast.1
  | retain addr => exact pmmRetainFrame_agrees h addr
  | release addr => exact pmmReleaseFrame_agrees h addr
  | freeContiguous addr count =>
    exact foldlRecOn _ _ h fun q hq off _ => pmmReleaseFrame_agrees hq _
  | reserve start stop =>
    simp only [Call.run, pmmReserveRange]
    split_ifs
    · exact (markRangeUsed_agrees ⟨h, rfl⟩ start stop).agrees
    · exact h

theorem run_agrees (b : BootInfo) (calls : List Call) : Agrees (calls.foldl Call.run (pmmInit b)) :=
  foldlRecOn _ _ (pmmInit_agrees b).agrees fun _ hq c _ => c.run_agrees hq

theorem idxToAddr_ne_zero (idx : Nat) : idxToAddr idx ≠ 0 := by
  unfold idxToAddr pmmBase
  omega

theorem idxToAddr_inj {j : Nat} (h : idxToAddr i = idxToAddr j) : i = j := by
  unfold idxToAddr pmmFrameSize at h
  omega

end

theorem frames_agree (b : BootInfo) (calls : List Call) :
    let p := calls.foldl Call.run (pmmInit b)
    (∀ i, i < p.managedFrames → (frameIsUsed p i = true ↔ p.refcount i ≠ 0)) ∧
    p.freeCount = (freeFrames p).card ∧
    ((pmmAllocFrame p).1 = 0 → freeFrames p = ∅) ∧
    ((pmmAllocFrame p).1 ≠ 0 → ∃ i ∈ freeFrames p, (pmmAllocFrame p).1 = idxToAddr i) ∧
    ∀ n, ((pmmAllocContiguousFrames p n).1 ≠ 0 ↔ ∃ start, FreeRun p n start) ∧
      ∀ start, (pmmAllocContiguousFrames p n).1 = idxToAddr start ↔
        IsLeast {t | FreeRun p n t} start := by
  intro p
  have h : Agrees p := run_agrees b calls
  refine ⟨h.counts, h.free, ?_, ?_, fun n => ?_⟩
  · obtain ⟨_, hnone⟩ | ⟨idx, _, haddr, _⟩ := pmmAllocFrame_cases h
    · exact fun _ => hnone
    · exact fun hzero => absurd (haddr.symm.trans hzero) (idxToAddr_ne_zero idx)
  · obtain ⟨heq, _⟩ | ⟨idx, hfree, haddr, _⟩ := pmmAllocFrame_cases h
    · exact fun hne => absurd (by rw [heq]) hne
    · exact fun _ => ⟨idx, hfree, haddr⟩
  · obtain ⟨heq, hnone⟩ | ⟨first, hleast, heq⟩ := pmmAllocContiguousFrames_cases h n
    · rw [heq]
      refine ⟨⟨fun hne => absurd rfl hne, fun ⟨t, run⟩ => absurd run (hnone t)⟩, fun start => ?_⟩
      exact ⟨fun hzero => absurd hzero.symm (idxToAddr_ne_zero start),
        fun hstart => absurd hstart.1 (hnone start)⟩
    · rw [heq]
      refine ⟨⟨fun _ => ⟨first, hleast.1⟩, fun _ => idxToAddr_ne_zero first⟩, fun start => ?_⟩
      constructor
      · intro haddr
        rw [← idxToAddr_inj haddr]
        exact hleast
      · intro hstart
        rw [hleast.unique hstart]

end SmallOS.Mem
