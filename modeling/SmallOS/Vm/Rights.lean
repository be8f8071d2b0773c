import SmallOS.Vm.Mmap

/-! The rights of pages and of areas. The calls that change an area change the page-table entries
with it, a fault takes the rights of a new entry from the area, and a fork takes rights away. -/

namespace SmallOS.Vm

open Prog Ranges Option Prod Area Space

variable {start stop : Nat} {p : Proc} {prot : Prot} {s s' : Space}

inductive Act
  | call (c : Call)
  | mmap (args : MmapArgs)
  | brk (newBrk : Nat)
  | fault (addr : Nat) (present write : Bool)
  /-- Other processes have come to share frames, or have given them up. -/
  | others (shared : Nat → Bool)

def Act.run (fs : Files) (p : Proc) : Act → Proc
  | .call c => { p with space := c.run p.space }
  | .mmap args => ((sysMmapImpl mmapRounds args p).map (·.2)).getD p
  | .brk newBrk => (sysBrkImpl newBrk p).2
  | .fault addr present write =>
    { p with space := after (processVmHandleFault fs addr present write p.space) }
  | .others shared => { p with space := { p.space with
      pages := fun page => (p.space.pages page).map ({ · with shared := shared page }) } }

/-- Every present page lies in one area, which may be used, and a writable page in one that may be
written. -/
def RightsHold (s : Space) : Prop :=
  ∀ page p, s.pages page = some p → ∃ a ∈ s.areas, Covers a page ∧
    (∀ b ∈ s.areas, Covers b page → b = a) ∧ a.prot ≠ 0 ∧ (p.write = true → a.prot.writable = true)

/-- `mprotect` takes every right from no page in use, and `brk` splits no area of a full array. -/
def Act.Spares (p : Proc) : Act → Prop
  | .call (.mprotect addr length prot) => prot = 0 →
    ∀ page, addr ≤ page → page < wrap (addr + pageAlign length) → p.space.pages page = none
  | .brk newBrk => userHeapBase ≤ newBrk → pageAlign newBrk < pageAlign p.heapBrk →
    p.space.Fits (pageAlign newBrk) (pageAlign p.heapBrk)
  | _ => True

def Spared (fs : Files) (p : Proc) : List Act → Prop
  | [] => True
  | act :: acts => act.Spares p ∧ Spared fs (act.run fs p) acts

structure Rightful (s : Space) : Prop where
  sound : Sound s.areas
  pages : ∀ page p, s.pages page = some p → ∃ prot maxProt flags,
    s.pageMap page = some (prot, maxProt, flags) ∧ prot ≠ 0 ∧
      (p.write = true → prot.writable = true)

theorem Rightful.holds (h : Rightful s) : RightsHold s := by
  intro page p hp
  obtain ⟨prot, maxProt, flags, hmap, hne, hwrite⟩ := h.pages page p hp
  obtain ⟨a, ha, hcov, hattrs⟩ := mem_of_value hmap
  obtain ⟨rfl, -⟩ := mk.inj hattrs
  refine ⟨a, ha, hcov, fun b hb hbcov => ?_, hne, hwrite⟩
  have hfind := find_of_mem h.sound.apart hb hbcov
  rw [find_of_mem h.sound.apart ha hcov] at hfind
  exact (some.inj hfind).symm

theorem RightsHold.rightful (sound : Sound s.areas) (h : RightsHold s) : Rightful s := by
  refine ⟨sound, fun page p hp => ?_⟩
  obtain ⟨a, ha, hcov, -, hne, hwrite⟩ := h page p hp
  exact ⟨a.prot, a.maxProt, a.flags, value_of_mem sound ha hcov, hne, hwrite⟩

theorem Rightful.weaken (h : Rightful s) (sound : Sound s'.areas) (map : s'.pageMap = s.pageMap)
    (pages : ∀ page p', s'.pages page = some p' → ∃ p, s.pages page = some p ∧
      (p'.write = true → p.write = true)) : Rightful s' := by
  refine ⟨sound, fun page p' hp' => ?_⟩
  obtain ⟨p, hp, hless⟩ := pages page p' hp'
  obtain ⟨prot, maxProt, flags, hmap, hne, hwrite⟩ := h.pages page p hp
  exact ⟨prot, maxProt, flags, map ▸ hmap, hne, fun hw => hwrite (hless hw)⟩

theorem Rightful.same (h : Rightful s) (sound : Sound s'.areas)
    (map : s'.pageMap = s.pageMap) (pages : s'.pages = s.pages) : Rightful s' :=
  h.weaken sound map fun _ p' hp' => ⟨p', pages ▸ hp', id⟩

theorem Rightful.kept (h : Rightful s) (kept : Kept s s') : Rightful s' := by
  refine h.same ?_ ?_ kept.pages
  · rw [kept.areas]
    exact h.sound
  · unfold pageMap
    rw [kept.areas]

theorem processVmAdd_rightful (a : Area) (h : Rightful s) :
    Post (processVmAdd a) s (fun _ s' => Rightful s') (fun _ s' => Rightful s') := by
  refine (processVmAdd_post a s).mono ?_ fun _ s' kept => h.kept kept
  rintro u s' ⟨hadd, pages⟩
  obtain ⟨sound, value⟩ := added_attrs h.sound hadd
  refine ⟨sound, fun page p hp => ?_⟩
  obtain ⟨prot, maxProt, flags, hmap, hrights⟩ := h.pages page p (pages ▸ hp)
  -- the new area takes no address that had an area
  have hout : ¬(a.stored.start ≤ page ∧ page < a.stored.stop) := by
    obtain ⟨b, hb, hcov, -⟩ := mem_of_value hmap
    have := hadd.free b hb
    unfold Covers at hcov
    simp only [lo_eq, hi_eq] at hcov
    omega
  refine ⟨prot, maxProt, flags, ?_, hrights⟩
  rw [pageMap, value, if_neg hout]
  exact hmap

theorem processVmRemoveRange_rightful (h : Rightful s) (fits : s.Fits start stop) :
    Post (processVmRemoveRange start stop) s (fun _ => Rightful) fun _ => Rightful := by
  refine (processVmRemoveRange_post start stop s).mono ?_ fun _ s' hend =>
    h.kept (hend.resolve_right fun hunfit => hunfit.1 fits)
  rintro u s' (⟨-, rfl⟩ | ⟨removed, pages⟩)
  · exact h
  obtain ⟨sound, value⟩ := removed_attrs fits h.sound removed
  refine ⟨sound, fun page p hp => ?_⟩
  rw [pages, unmapPages] at hp
  split_ifs at hp with hin
  obtain ⟨prot, maxProt, flags, hmap, hrights⟩ := h.pages page p hp
  refine ⟨prot, maxProt, flags, ?_, hrights⟩
  rw [pageMap, value, if_neg hin]
  exact hmap

theorem Isolated.protects {fits : Prop} {l l1 : List Area} (hf : fits) (sound : Sound l)
    (isolated : Isolated fits start stop l l1) (page : Nat) :
    l1.any (fun a => !decide (a.outside start stop) && decide (Covers a page)) = true ↔
      (start ≤ page ∧ page < stop) ∧ (value Area.attrs l page).isSome := by
  obtain ⟨sound1, cutStart, cutStop, same⟩ := isolated_attrs hf sound isolated
  rw [List.any_eq_true, ← same]
  constructor
  · rintro ⟨a, ha, hmeets⟩
    simp only [Bool.and_eq_true, Bool.not_eq_true', decide_eq_false_iff_not,
      decide_eq_true_eq] at hmeets
    obtain ⟨hmeets, hcov⟩ := hmeets
    rw [value_of_mem sound1 ha hcov]
    have hcut := cutStart.cases cutStop ha
    unfold Covers at hcov
    unfold outside at hmeets
    simp only [lo_eq, hi_eq] at hcov hcut
    exact ⟨by omega, rfl⟩
  · rintro ⟨hin, hsome⟩
    obtain ⟨x, hx⟩ := isSome_iff_exists.mp hsome
    obtain ⟨a, ha, hcov, -⟩ := mem_of_value hx
    refine ⟨a, ha, ?_⟩
    have hmeets : ¬a.outside start stop := by
      unfold Covers at hcov
      unfold outside
      simp only [lo_eq, hi_eq] at hcov
      omega
    simp [hmeets, hcov]

theorem Page.protect_write (p : Page) (h : (p.protect prot).write = true) :
    prot.writable = true := by
  unfold Page.protect at h
  split_ifs at h with hprot
  · exact hprot
  · exact hprot

theorem processVmProtect_rightful (h : Rightful s) (fits : s.Fits start stop)
    (spares : prot = 0 → ∀ page, start ≤ page → page < stop → s.pages page = none) :
    Post (processVmProtect start stop prot) s (fun _ => Rightful) fun _ => Rightful := by
  refine (processVmProtect_post start stop prot s).mono ?_ fun _ s' hend =>
    h.kept (hend.resolve_right fun hunfit => hunfit.1 fits)
  rintro u s' ⟨hprot, l, isolated, pages⟩
  obtain ⟨sound, value⟩ := protected_attrs fits h.sound hprot
  refine ⟨sound, fun page p' hp' => ?_⟩
  rw [pageMap, value]
  rw [pages, protectPages] at hp'
  split_ifs at hp' with hin
  · obtain ⟨hrange, -⟩ := (isolated.protects fits h.sound page).mp hin
    obtain ⟨p, hp, rfl⟩ := map_eq_some_iff.mp hp'
    obtain ⟨old, maxProt, flags, hmap, -⟩ := h.pages page p hp
    rw [pageMap] at hmap
    refine ⟨prot, maxProt, flags, ?_, fun hzero => ?_, p.protect_write⟩
    · rw [if_pos hrange, hmap]
      rfl
    · rw [spares hzero page hrange.1 hrange.2] at hp
      cases hp
  · obtain ⟨old, maxProt, flags, hmap, hrights⟩ := h.pages page p' hp'
    rw [pageMap] at hmap
    have hout : ¬(start ≤ page ∧ page < stop) := by
      intro hrange
      refine hin ((isolated.protects fits h.sound page).mpr ⟨hrange, ?_⟩)
      rw [hmap]
      rfl
    rw [if_neg hout]
    exact ⟨old, maxProt, flags, hmap, hrights⟩

theorem processVmHandleFault_rightful (fs : Files) (addr : Nat) (present write : Bool)
    (h : Rightful s) : Post (processVmHandleFault fs addr present write) s (fun _ => Rightful)
      fun _ => Rightful := by
  refine (processVmHandleFault_post fs addr present write s).mono ?_ fun _ _ kept => h.kept kept
  rintro u s' ⟨a, p, handled⟩
  refine ⟨by rw [handled.areas]; exact h.sound, fun x q hq => ?_⟩
  rw [pageMap, handled.areas]
  rw [handled.pages, Function.update_apply] at hq
  split_ifs at hq with hx
  · obtain rfl := Option.some.inj hq
    refine ⟨a.prot, a.maxProt, a.flags, ?_, handled.used, handled.right⟩
    rw [hx, value, handled.found]
    rfl
  · exact h.pages x q hq

theorem Rightful.lend (h : Rightful s) (cloned : Nat → Bool) :
    Rightful { s with pages := lendPages s cloned } := by
  refine h.weaken h.sound rfl fun page p' hp' => ?_
  change lendPages s cloned page = some p' at hp'
  rw [lendPages] at hp'
  split_ifs at hp'
  · obtain ⟨p, hp, rfl⟩ := map_eq_some_iff.mp hp'
    refine ⟨p, hp, fun h => ?_⟩
    unfold Page.lend at h
    split_ifs at h <;> exact h
  · exact ⟨p', hp', id⟩

theorem Rightful.borrow {child : Space} (h : Rightful s) (areas : child.areas = s.areas) :
    Rightful { child with pages := borrowPages s } := by
  refine h.weaken ?_ ?_ fun page p' hp' => ?_
  · exact areas ▸ h.sound
  · exact congrArg (value attrs) areas
  · obtain ⟨p, hp, rfl⟩ := map_eq_some_iff.mp hp'
    exact ⟨p, hp, fun hw => absurd hw Bool.false_ne_true⟩

theorem Call.run_rightful {c : Call} (h : Rightful p.space) (spares : (Act.call c).Spares p) :
    Rightful (c.run p.space) := by
  cases c with
  | munmap addr length => exact after_of_post (sysMunmapImpl_keeps (fun _ => h.kept)
      fun _ kept fits => processVmRemoveRange_rightful (h.kept kept) fits)
  | mprotect addr length prot => exact after_of_post (sysMprotectImpl_keeps (fun _ => h.kept)
      fun _ kept fits => processVmProtect_rightful (h.kept kept) fits (kept.pages ▸ spares))
  | fork child fate =>
    rw [Call.run]
    split
    · exact h
    · rename_i hrun
      have areas := (processVmClone_post p.space child).of_ok hrun
      cases fate with
      | failed cloned => exact h.lend cloned
      | parent => exact h.lend _
      | child => exact h.borrow areas

theorem Act.run_rightful (fs : Files) {act : Act} (h : Rightful p.space)
    (spares : act.Spares p) : Rightful (act.run fs p).space := by
  cases act with
  | call c => exact Call.run_rightful h spares
  | mmap args =>
    rw [Act.run]
    cases hrun : sysMmapImpl mmapRounds args p with
    | none => exact h
    | some out => exact (sysMmapImpl_keeps processVmAdd_rightful h hrun).1
  | brk newBrk => exact (sysBrkImpl_keeps processVmAdd_rightful newBrk h fun hlow hless =>
      processVmRemoveRange_rightful h (spares hlow hless)).1
  | fault addr present write =>
    exact after_of_post (processVmHandleFault_rightful fs addr present write h)
  | others shared =>
    refine h.weaken h.sound rfl fun page p' hp' => ?_
    obtain ⟨q, hq, rfl⟩ := map_eq_some_iff.mp hp'
    exact ⟨q, hq, id⟩

theorem run_rightful (fs : Files) (acts : List Act) (h : Rightful p.space)
    (spared : Spared fs p acts) : Rightful (acts.foldl (Act.run fs) p).space := by
  induction acts generalizing p with
  | nil => exact h
  | cons act acts ih => exact ih (Act.run_rightful fs h spared.1) spared.2

/-- Over the whole life of a process no page has rights that its area does not have, as long as no
page in use is given a protection that allows nothing and `brk` finds a slot where it splits. -/
theorem rights_within_area (fs : Files) (p : Proc) (sound : Sound p.space.areas)
    (start : RightsHold p.space) (acts : List Act) (spared : Spared fs p acts) :
    RightsHold (acts.foldl (Act.run fs) p).space :=
  (run_rightful fs acts (start.rightful sound) spared).holds

def noFiles : Files := fun _ => none

def onePage : List Act :=
  [.mmap ⟨0, 4096, protRead ||| protWrite, 0x22, none, 0⟩, .fault userMmapBase false true]

def forkAndStore : List Act :=
  onePage ++ [.call (.fork newProc.space .parent), .fault userMmapBase true true]

def storeAndRevoke : List Act := onePage ++ [.call (.mprotect userMmapBase 4096 0)]

theorem newProc_sound : Sound newProc.space.areas :=
  ⟨fun _ h => absurd h List.not_mem_nil, List.Pairwise.nil⟩

theorem rights_within_area_fork : RightsHold (forkAndStore.foldl (Act.run noFiles) newProc).space :=
  rights_within_area noFiles newProc newProc_sound (fun _ _ h => (nomatch h)) forkAndStore
    ⟨trivial, trivial, trivial, trivial, trivial⟩

/-- `mprotect` without any right only takes the right to write away. The page stays present. -/
theorem protected_page_stays : ¬∀ (fs : Files) (p : Proc), Sound p.space.areas →
    RightsHold p.space → ∀ acts : List Act, RightsHold (acts.foldl (Act.run fs) p).space := by
  intro h
  have hrun := h noFiles newProc newProc_sound (fun _ _ h => (nomatch h)) storeAndRevoke
  have hpage : ((storeAndRevoke.foldl (Act.run noFiles) newProc).space.pages
      userMmapBase).isSome = true := by decide +kernel
  have hprot : ∀ a ∈ (storeAndRevoke.foldl (Act.run noFiles) newProc).space.areas,
      a.prot = 0 := by decide +kernel
  obtain ⟨p, hp⟩ := isSome_iff_exists.mp hpage
  obtain ⟨a, ha, -, -, hne, -⟩ := hrun userMmapBase p hp
  exact hne (hprot a ha)

end SmallOS.Vm
