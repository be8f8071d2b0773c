import SmallOS.Exec.Mapping

/-! Lazy and eager loading of one image. An eager load puts the bytes of the segments in present
pages, a lazy load makes areas that take the same bytes from the file. -/

namespace SmallOS.Exec

open Bytes Prog Ranges Vm Function List Option Nat Image Segment

variable {fs : Files} {img : Image} {l : List Area} {segs : List Segment} {s : Loader}
  {addr bias dynBase i n phoff type : Nat} {p : Page} {path : Path} {g : Segment} {s' : Space}
  {E : Unit → Loader → Prop}

theorem byteOf_of_pages {s : Space} (h : s'.pages = s.pages) (x : Nat) :
    byteOf s' x = byteOf s x := by
  rw [byteOf, byteOf, h]

theorem byteOf_mappedPages {s : Space} {start : Nat} (aligned : start % pageSize = 0)
    (pages : s'.pages = mappedPages start n s.pages) (x : Nat) : byteOf s' x =
      if start ≤ x ∧ x < start + pageSize * n then some ((byteOf s x).getD 0) else byteOf s x := by
  have hx := pageFloor_add_mod x
  have hiff : start ≤ pageFloor x ∧ pageFloor x < start + pageSize * n ∧
      pageFloor x % pageSize = 0 ↔ start ≤ x ∧ x < start + pageSize * n := by
    unfold pageSize at *
    omega
  rw [byteOf, pages, mappedPages]
  by_cases hin : start ≤ x ∧ x < start + pageSize * n
  · rw [if_pos (hiff.mpr hin), if_pos hin, byteOf]
    cases s.pages (pageFloor x) with
    | none => rfl
    | some p => rfl
  · rw [if_neg (hiff.not.mpr hin), if_neg hin, byteOf]

structure Segment.Wf (g : Segment) : Prop where
  vaddr_lt : g.vaddr < 2 ^ 32
  memsz_lt : g.memsz < 2 ^ 32
  memsz_pos : 0 < g.memsz
  filesz_le : g.filesz ≤ g.memsz

def Segment.ApartFrom (g h : Segment) : Prop :=
  g.vaddr + g.memsz ≤ h.vaddr ∨ h.vaddr + h.memsz ≤ g.vaddr

theorem Segment.mapEnd_eq (g : Segment) :
    g.mapEnd = (((g.vaddr + g.memsz) % 4294967296 + 4095) % 4294967296) / 4096 * 4096 := rfl

theorem Segment.mapStart_eq (g : Segment) : g.mapStart = g.vaddr / 4096 * 4096 := rfl

theorem Segment.Wf.wraps (wf : g.Wf) (range : g.mapStart < g.mapEnd)
    (h : ¬g.Fits) : 2 ^ 32 ≤ g.vaddr + g.memsz := by
  have := wf.filesz_le
  unfold Fits at h
  rw [g.mapStart_eq, g.mapEnd_eq] at *
  omega

theorem Segment.Wf.alone {h : Segment} (wf : g.Wf) (wfh : h.Wf) (range : g.mapStart < g.mapEnd)
    (hfits : ¬g.Fits) (apart : g.ApartFrom h) : ¬Covers h g.mapEnd := by
  rintro ⟨-, hhi⟩
  have := wf.wraps range hfits
  have := wfh.vaddr_lt
  simp only [hi_eq] at hhi
  unfold ApartFrom at apart
  rw [g.mapStart_eq, g.mapEnd_eq] at *
  rw [h.mapEnd_eq] at hhi
  omega

structure EagerInv (img : Image) (segs : List Segment) (s : Loader) : Prop where
  safe : Safe s
  covered : ∀ x, Covered s.space.areas x ↔ ∃ g ∈ segs, Covers g x
  bytes : ∀ x, byteOf s.space x = value (Segment.byteAt img) segs x
  fits : ∀ g ∈ segs, g.Fits

theorem EagerInv.same {s' : Loader}
    (h : EagerInv img segs s) (same : SameSpace s s') : EagerInv img segs s' := by
  refine ⟨h.safe.same same, ?_, ?_, h.fits⟩
  · rw [same.space]
    exact h.covered
  · rw [same.space]
    exact h.bytes

theorem Segment.byteAt_eq (img : Image) (g : Segment) (x : Nat) : g.byteAt img x =
      if g.vaddr ≤ x ∧ x < g.vaddr + g.filesz then img.pointer g.offset (x - g.vaddr) else 0 := by
  unfold Segment.byteAt source
  split
  · rename_i h
    split at h
    · cases h
    · rename_i hout
      rw [if_neg hout]
  · rename_i offset h
    split at h
    · rename_i hin
      rw [if_pos hin, ← some.inj h]
      rfl
    · cases h

theorem placeSegment_eager (inv : EagerInv img segs s) (wf : g.Wf) (wfs : ∀ h ∈ segs, h.Wf)
    (apart : ∀ h ∈ segs, g.ApartFrom h) :
    Post (placeSegment fs img none type g) s (fun _ s' => EagerInv img (g :: segs) s')
      (fun _ _ => True) := by
  refine .bind (onSpace_post (processVmAdd_post _ s.space)) (fun _ _ _ => trivial) ?_
  rintro u s1 ⟨space, rfl, added, pages⟩
  have range : g.mapStart < g.mapEnd := added.valid.nonempty
  have high : g.mapEnd ≤ userStackTop := added.valid.high
  have hend := pages_end range.le
  have safe1 := inv.safe.added added pages
  have covered1 : ∀ x, Covered space.areas x ↔ ∃ h ∈ g :: segs, Covers h x := by
    intro x
    rw [Added.covered_iff inv.safe.sound added x, inv.covered]
    simp only [mem_cons, exists_eq_or_imp]
    rfl
  refine .bind (onSpace_post (elfMapPages_post g.mapStart_aligned _ space))
    (fun _ _ _ => trivial) ?_
  rintro u s2 ⟨space', rfl, areas, pages'⟩
  have safe2 : Safe ((s.setSpace space).setSpace space') := safe1.mappedPages areas pages'
    fun x hlo hhi => (covered1 x).mpr ⟨g, mem_cons_self, hlo, by rwa [hend] at hhi⟩
  have bytes2 : ∀ x, byteOf space' x =
      if g.mapStart ≤ x ∧ x < g.mapEnd then some 0 else value (Segment.byteAt img) segs x := by
    intro x
    rw [byteOf_mappedPages g.mapStart_aligned pages' x, hend, byteOf_of_pages pages x, inv.bytes x]
    by_cases hin : g.mapStart ≤ x ∧ x < g.mapEnd
    · -- the range was free, so none of its pages was present
      have hnone : value (Segment.byteAt img) segs x = none := by
        refine value_none.mpr fun h hh hcov => ?_
        obtain ⟨b, hb, hlo, hhi⟩ := (inv.covered x).mpr ⟨h, hh, hcov⟩
        have free : b.stop ≤ g.mapStart ∨ g.mapEnd ≤ b.start := added.free b hb
        simp only [Area.lo_eq, Area.hi_eq] at hlo hhi
        omega
      rw [if_pos hin, if_pos hin, hnone]
      rfl
    · rw [if_neg hin, if_neg hin]
  refine (copyChunks_post fs g.vaddr (img.pointer g.offset) (some g.offset) g.filesz g.filesz 0 _
    (by omega)).mono ?_ (fun _ _ _ => trivial)
  intro u s' copied
  by_cases hfits : g.Fits
  · have hwrap : g.vaddr + g.filesz ≤ 2 ^ 32 := hfits.trans (high.trans (by decide))
    have hlow : g.mapStart ≤ g.vaddr := div_mul_le_self ..
    have inside : ∀ x, g.vaddr ≤ x → x < g.vaddr + g.filesz → g.mapStart ≤ x ∧ x < g.mapEnd :=
      fun x hlo hhi => ⟨hlow.trans hlo, hhi.trans_le hfits⟩
    have written := copied.bytes hwrap
    have bytes' : ∀ x, byteOf s'.space x =
        if g.vaddr ≤ x ∧ x < g.vaddr + g.filesz then some (img.pointer g.offset (x - g.vaddr))
        else byteOf space' x := by
      intro x
      split_ifs with hpart
      · have := written.holds (x - g.vaddr) (Nat.zero_le _) (by omega)
        rwa [Nat.add_sub_cancel' hpart.1] at this
      · refine written.only (fun y hlo hhi => ?_) x hpart
        change (byteOf space' y).isSome
        rw [bytes2, if_pos (inside y hlo hhi)]
        rfl
    have areas' : s'.space.areas = space.areas := copied.areas.trans areas
    refine ⟨copied.safe safe2, fun x => by rw [areas', covered1], fun x => ?_, ?_⟩
    · rw [bytes', value_cons, byteAt_eq, bytes2]
      by_cases hpart : g.vaddr ≤ x ∧ x < g.vaddr + g.filesz
      · have hcov : Covers g x := inside x hpart.1 hpart.2
        rw [if_pos hpart, if_pos hpart, if_pos hcov]
      · rw [if_neg hpart, if_neg hpart]
        rfl
    · intro h hh
      rcases mem_cons.mp hh with rfl | hh
      · exact hfits
      · exact inv.fits h hh
  · -- the copy would have to pass the page after the segment, which no area covers
    exfalso
    have hlow : g.vaddr < g.mapEnd := by
      have := pageFloor_add_mod g.vaddr
      unfold mapStart at *
      unfold pageSize at *
      omega
    have hcov := copied.covered safe2 (g.mapEnd - g.vaddr) (Nat.zero_le _) (by
      unfold Fits at hfits
      omega)
    have hwrap : wrap (g.vaddr + (g.mapEnd - g.vaddr)) = g.mapEnd := by
      rw [Nat.add_sub_cancel' hlow.le]
      exact mod_eq_of_lt (high.trans_lt (by decide))
    rw [hwrap] at hcov
    obtain ⟨h, hh, hcovers⟩ := (covered1 g.mapEnd).mp (by rwa [← areas])
    rcases mem_cons.mp hh with rfl | hh
    · exact lt_irrefl _ hcovers.2
    · exact wf.alone (wfs h hh) range hfits (apart h hh) hcovers

def Segment.fileSource (path : Path) (g : Segment) (x : Nat) : Option (Path × Nat) :=
  (g.source x).map (path, ·)

structure LazyInv (path : Path) (segs : List Segment) (s : Loader) : Prop where
  sound : Sound s.space.areas
  file : ∀ a ∈ s.space.areas, a.FileOk
  source : ∀ x, value Area.source s.space.areas x = value (Segment.fileSource path) segs x
  absent : ∀ page, s.space.pages page = none

theorem LazyInv.same {s' : Loader}
    (h : LazyInv path segs s) (same : SameSpace s s') : LazyInv path segs s' := by
  have space := same.space
  refine ⟨?_, ?_, ?_, ?_⟩
  · rw [space]
    exact h.sound
  · rw [space]
    exact h.file
  · rw [space]
    exact h.source
  · rw [space]
    exact h.absent

section

variable (h : g.Fits) (high : g.mapEnd < userStackTop)
include h high

theorem Segment.Fits.fileEnd : wrap (g.vaddr + g.filesz) = g.vaddr + g.filesz :=
  mod_eq_of_lt ((show _ ≤ _ from h).trans_lt (high.trans (by decide)))

theorem Segment.Fits.area_fileOk
    (type : Nat) (path : Option Path) : (g.area type path).stored.FileOk := by
  intro _
  have hend := h.fileEnd high
  have hfloor := pageFloor_add_mod g.vaddr
  have hmod := mod_lt g.vaddr (show 0 < pageSize by decide)
  refine ⟨div_mul_le_self .., ?_, ?_, ?_⟩
  · show g.vaddr < pageFloor g.vaddr + pageSize
    omega
  · show g.vaddr ≤ wrap (g.vaddr + g.filesz)
    omega
  · show wrap (g.vaddr + g.filesz) ≤ g.mapEnd
    rw [hend]
    exact h

theorem Segment.Fits.area_source (type : Nat)
    (path : Path) (x : Nat) : (g.area type (some path)).stored.source x =
      g.fileSource (path.take (fdNameMax - 1)) x := by
  unfold Area.source fileSource source
  show (if Kind.elf.backed = true ∧ g.vaddr ≤ x ∧ x < wrap (g.vaddr + g.filesz) then
    some (path.take (fdNameMax - 1), wrap (g.offset + (x - g.vaddr))) else none) = _
  rw [h.fileEnd high]
  by_cases hin : g.vaddr ≤ x ∧ x < g.vaddr + g.filesz
  · rw [if_pos ⟨rfl, hin⟩, if_pos hin, map_some]
  · rw [if_neg (by tauto), if_neg hin, map_none]

end

theorem placeSegment_lazy (inv : LazyInv (path.take (fdNameMax - 1)) segs s) (fits : g.Fits)
    (high : g.mapEnd < userStackTop) : Post (placeSegment fs img (some path) type g) s
      (fun _ s' => LazyInv (path.take (fdNameMax - 1)) (g :: segs) s') (fun _ _ => True) := by
  refine .bind (onSpace_post (processVmAdd_post _ s.space)) (fun _ _ _ => trivial) ?_
  rintro u s1 ⟨space, rfl, added, pages⟩
  obtain ⟨file, source⟩ := added_source inv.sound inv.file
    (fits.area_fileOk high type (some path)) added
  refine .ret ⟨(added_attrs inv.sound added).1, file, fun x => ?_, fun page => ?_⟩
  · rw [value_cons, ← inv.source x, ← fits.area_source high type path x]
    exact source x
  · show space.pages page = none
    rw [pages]
    exact inv.absent page

structure Fresh (s : Loader) : Prop where
  areas : s.space.areas = []
  absent : ∀ page, s.space.pages page = none
  writes : s.writes = []

theorem Fresh.safe (h : Fresh s) : Safe s := by
  refine ⟨?_, ?_, ?_⟩
  · rw [h.areas]
    exact ⟨by simp, List.Pairwise.nil⟩
  · intro page hpage
    rw [h.absent] at hpage
    cases hpage
  · rw [h.writes]
    simp

theorem Fresh.eager (h : Fresh s) (img : Image) : EagerInv img [] s := by
  refine ⟨h.safe, fun x => ?_, fun x => ?_, by simp⟩
  · rw [h.areas]
    simp [Covered]
  · rw [byteOf, h.absent]
    rfl

theorem Fresh.lazy (h : Fresh s) (path : Path) : LazyInv path [] s := by
  refine ⟨h.safe.sound, ?_, fun x => ?_, h.absent⟩
  · rw [h.areas]
    simp
  · rw [h.areas]
    rfl

theorem Image.mem_loads :
    ∀ {n : Nat}, g ∈ img.loads bias phoff n → ∃ i < n, img.load bias phoff i = some g := by
  intro n
  induction n with
  | zero => intro h; cases h
  | succ n ih =>
    intro h
    rcases mem_append.mp h with h | h
    · exact ⟨n, n.lt_succ_self, mem_toList.mp h⟩
    · obtain ⟨i, hi, hg⟩ := ih h
      exact ⟨i, hi.trans n.lt_succ_self, hg⟩

theorem Image.loads_suffix (img : Image) (bias phoff : Nat) {m : Nat} (h : m ≤ n) :
    img.loads bias phoff m <:+ img.loads bias phoff n := by
  induction n with
  | zero =>
    obtain rfl : m = 0 := by omega
    exact suffix_refl _
  | succ n ih =>
    by_cases heq : m = n + 1
    · subst heq
      exact suffix_refl _
    · exact (ih (by omega)).trans (suffix_append ..)

theorem Image.load_wf (h : img.load bias phoff i = some g) (size : g.filesz ≤ g.memsz) : g.Wf := by
  unfold load at h
  simp only at h
  split at h
  · rename_i hload
    obtain rfl := Option.some.inj h
    exact ⟨mod_lt _ (by decide), readU32_lt .., Nat.pos_of_ne_zero hload.2, size⟩
  · cases h

theorem elfMapImage_eager (fresh : Fresh s) (sizes : ∀ g ∈ img.segments dynBase, g.filesz ≤ g.memsz)
    (apart : (img.segments dynBase).Pairwise Segment.ApartFrom) :
    Post (elfMapImageIntoProcess fs img none dynBase) s
      (fun _ s' => EagerInv img (img.segments dynBase) s') (fun _ _ => True) := by
  refine elfMapImageIntoProcess_post (I := fun segs s => EagerInv img segs s)
    (fun _ _ _ inv same => inv.same same) (fun _ _ _ => trivial) ?_ (fresh.eager img)
  intro n hn g hg s' inv _ _
  have tail : g :: img.loads (img.bias dynBase) img.phoff n <:+ img.segments dynBase := by
    have := img.loads_suffix (img.bias dynBase) img.phoff (succ_le_of_lt hn)
    rwa [loads, hg] at this
  have wf : ∀ h ∈ g :: img.loads (img.bias dynBase) img.phoff n, h.Wf := by
    intro h hh
    obtain ⟨i, -, hi⟩ := mem_loads (tail.subset hh)
    exact load_wf hi (sizes h (tail.subset hh))
  exact placeSegment_eager inv (wf g mem_cons_self) (fun h hh => wf h (mem_cons_of_mem g hh))
    (pairwise_cons.mp (apart.sublist tail.sublist)).1

theorem elfMapImage_lazy (fresh : Fresh s) (fits : ∀ g ∈ img.segments dynBase, g.Fits) :
    Post (elfMapImageIntoProcess fs img (some path) dynBase) s
      (fun _ s' => LazyInv (path.take (fdNameMax - 1)) (img.segments dynBase) s')
      (fun _ _ => True) := by
  refine elfMapImageIntoProcess_post (I := fun segs s => LazyInv (path.take (fdNameMax - 1)) segs s)
    (fun _ _ _ inv same => inv.same same) (fun _ _ _ => trivial) ?_ (fresh.lazy _)
  intro n hn g hg s' inv _ high
  refine placeSegment_lazy inv (fits g ?_) high
  have := img.loads_suffix (img.bias dynBase) img.phoff (succ_le_of_lt hn)
  rw [loads, hg] at this
  exact this.subset mem_cons_self

structure Faulted (fs : Files) (l : List Area) (s : Space) : Prop where
  areas : s.areas = l
  pages : ∀ page p, s.pages page = some p →
    page % pageSize = 0 ∧ ∃ a, find l page = some a ∧ Loaded fs a page p.bytes

theorem Faulted.kept {s : Space} (h : Faulted fs l s) (kept : Kept s s') : Faulted fs l s' :=
  ⟨kept.areas.trans h.areas, fun page p hp => h.pages page p (by rwa [← kept.pages])⟩

theorem Faulted.update {s : Space} (h : Faulted fs l s) {a : Area} {present : Bool}
    (handled : Handled fs present (pageFloor addr) a p s s')
    (loaded : Loaded fs a (pageFloor addr) p.bytes) : Faulted fs l s' := by
  refine ⟨handled.areas.trans h.areas, fun page q hq => ?_⟩
  rw [handled.pages] at hq
  by_cases heq : page = pageFloor addr
  · rw [heq, update_self] at hq
    obtain rfl := Option.some.inj hq
    rw [heq]
    exact ⟨pageFloor_aligned addr, a, h.areas ▸ handled.found, loaded⟩
  · rw [update_of_ne heq] at hq
    exact h.pages page q hq

theorem processVmFaultInPage_faulted {s : Space} (h : Faulted fs l s) (addr : Nat) (write : Bool) :
    Post (processVmFaultInPage fs addr write) s (fun _ s' => Faulted fs l s')
      (fun _ s' => Faulted fs l s') := by
  refine .bind_get ?_
  cases hpage : s.pages (pageFloor addr) with
  | none =>
    refine (processVmHandleFault_post ..).mono ?_ (fun _ _ kept => h.kept kept)
    rintro u s' ⟨a, p, handled⟩
    exact h.update handled (handled.loaded rfl).2
  | some p =>
    refine .branch (fun _ => .ret h) fun _ => ?_
    refine .branch (fun _ => .ret h) fun _ => ?_
    refine (processVmHandleFault_post ..).mono ?_ (fun _ _ kept => h.kept kept)
    rintro u s' ⟨a, q, handled⟩
    obtain ⟨old, hold, bytes⟩ := handled.resolved rfl
    obtain ⟨-, b, hfind, loaded⟩ := h.pages _ old hold
    obtain rfl : b = a := Option.some.inj (hfind.symm.trans (h.areas ▸ handled.found))
    exact h.update handled (bytes ▸ loaded)

def faultAll (fs : Files) (faults : List (Nat × Bool)) (s : Space) : Space :=
  faults.foldl (fun s fault => after (processVmFaultInPage fs fault.1 fault.2 s)) s

theorem faultAll_faulted (faults : List (Nat × Bool)) :
    ∀ s, Faulted fs l s → Faulted fs l (faultAll fs faults s) := by
  induction faults with
  | nil => exact fun s h => h
  | cons fault faults ih =>
    intro s h
    exact ih _ (after_of_post (processVmFaultInPage_faulted h fault.1 fault.2))

theorem page_split {page : Nat} (aligned : page % pageSize = 0) (hi : i < pageSize) :
    pageFloor (page + i) = page ∧ (page + i) % pageSize = i := by
  unfold pageFloor pageSize at *
  omega

structure Backs (f : File) (img : Image) : Prop where
  size : f.size = img.len
  bytes : ∀ i < img.len, f.bytes i = img.bytes i
  padding : ∀ i, img.len ≤ i → i / pageSize * pageSize < img.len → img.bytes i = 0

theorem Backs.supplies {f : File} (backs : Backs f img) (hf : fs path = some f) {x : Nat}
    {b : UInt8} (h : Supplies fs b (g.fileSource path x)) : b = g.byteAt img x := by
  unfold fileSource at h
  unfold Segment.byteAt
  cases hsource : g.source x with
  | none =>
    rw [hsource] at h
    exact h
  | some offset =>
    rw [hsource] at h
    obtain ⟨f', hf', hin, rfl⟩ := h
    obtain rfl : f = f' := Option.some.inj (hf.symm.trans hf')
    rw [backs.size] at hin
    rw [fileByte, hf]
    simp only [backs.size]
    split
    · rename_i hlt
      exact backs.bytes offset hlt
    · rename_i hge
      exact (backs.padding offset (not_lt.mp hge) hin).symm

theorem lazy_agrees_with_eager (fs : Files) (img : Image) (path : Path) (f : File)
    (hf : fs (path.take (fdNameMax - 1)) = some f) (backs : Backs f img) (dynBase : Nat)
    (sizes : ∀ g ∈ img.segments dynBase, g.filesz ≤ g.memsz)
    (apart : (img.segments dynBase).Pairwise Segment.ApartFrom) (s₁ s₂ : Loader) (fresh₁ : Fresh s₁)
    (fresh₂ : Fresh s₂) (info₁ info₂ : MapInfo) (lazy eager : Loader)
    (hlazy : elfMapImageIntoProcess fs img (some path) dynBase s₁ = .ok info₁ lazy)
    (heager : elfMapImageIntoProcess fs img none dynBase s₂ = .ok info₂ eager)
    (faults : List (Nat × Bool)) (page : Nat) (p : Page)
    (hp : (faultAll fs faults lazy.space).pages page = some p) :
    ∃ q, eager.space.pages page = some q ∧ ∀ i < pageSize, p.bytes i = q.bytes i ∧
      value (Segment.byteAt img) (img.segments dynBase) (page + i) = some (p.bytes i) := by
  have einv := (elfMapImage_eager fresh₂ sizes apart).of_ok heager
  have linv := (elfMapImage_lazy fresh₁ einv.fits).of_ok hlazy
  have start : Faulted fs lazy.space.areas lazy.space :=
    ⟨rfl, fun page p hp => by rw [linv.absent page] at hp; cases hp⟩
  obtain ⟨aligned, a, hfind, loaded⟩ := (faultAll_faulted faults _ start).pages page p hp
  have hfloor : pageFloor page = page := Nat.div_mul_cancel (dvd_of_mod_eq_zero aligned)
  have bytes : ∀ i < pageSize,
      value (Segment.byteAt img) (img.segments dynBase) (page + i) = some (p.bytes i) := by
    intro i hi
    have hsource := linv.source (page + i)
    have hfind' : find lazy.space.areas (page + i) = some a := by
      rw [← hfloor] at hfind ⊢
      exact linv.sound.find_page hfind hi
    rw [value, hfind', map_some] at hsource
    obtain ⟨g, hg, hgx⟩ := map_eq_some_iff.mp hsource.symm
    have supplies : Supplies fs (p.bytes i)
        (g.fileSource (path.take (fdNameMax - 1)) (page + i)) := by
      rw [hgx]
      exact loaded i hi
    rw [value, hg, map_some, ← backs.supplies hf supplies]
  obtain ⟨q, hq⟩ : ∃ q, eager.space.pages page = some q := by
    have := einv.bytes page
    rw [show page = page + 0 from rfl, bytes 0 (by decide), Nat.add_zero, byteOf, hfloor] at this
    obtain ⟨q, hq, -⟩ := map_eq_some_iff.mp this
    exact ⟨q, hq⟩
  refine ⟨q, hq, fun i hi => ⟨?_, bytes i hi⟩⟩
  have := einv.bytes (page + i)
  obtain ⟨hpage, hoff⟩ := page_split aligned hi
  rw [bytes i hi, byteOf, hpage, hq, map_some, hoff] at this
  exact (Option.some.inj this).symm

/-- A program of one writable segment at `0x400000` with two pages: the header, one program
header at offset 52 and four bytes of code. -/
def tinyElf : List UInt8 :=
  [0x7F, 0x45, 0x4C, 0x46, 1, 1, 1, 0, 0, 0, 0, 0, 0, 0, 0, 0, 2, 0, 3, 0, 1, 0, 0, 0] ++
    [0x54, 0, 0x40, 0, 52, 0, 0, 0, 0, 0, 0, 0, 0, 0, 0, 0, 52, 0, 32, 0, 1, 0, 0, 0] ++
    [0, 0, 0, 0] ++
    [1, 0, 0, 0, 0, 0, 0, 0, 0, 0, 0x40, 0, 0, 0, 0x40, 0, 0x58, 0, 0, 0, 0, 0x18, 0, 0] ++
    [7, 0, 0, 0, 0, 0x10, 0, 0] ++ [0xEB, 0xFE, 0x90, 0x90]

def tinyImage : Image := ⟨tinyElf.length, ofList tinyElf⟩

def tinyFile : File := ⟨tinyElf.length, ofList tinyElf, by decide⟩

def tinyFiles : Files := fun path => if path = [97] then some tinyFile else none

theorem tinyFile_backs : Backs tinyFile tinyImage where
  size := rfl
  bytes _ _ := rfl
  padding i hi _ := by
    exact getD_eq_default _ _ hi

def blankProcess : Process where
  space := ⟨none, fun _ => none, fun _ => true, 0⟩
  args := []
  argArena := false
  env := []
  envArena := false
  auxv := []
  userEntry := 0
  userStackEsp := 0
  heapBase := 0
  heapBrk := 0
  mmapBase := 0
  mmapNext := 0
  fds := fun _ => none
  name := []

def blankLoader : Loader := ⟨blankProcess, [], []⟩

theorem blankLoader_fresh : Fresh blankLoader := ⟨rfl, fun _ => rfl, rfl⟩

theorem tinyImage_segments : tinyImage.segments 0 = [⟨0x400000, 0x1800, 7, 0x58, 0⟩] := by
  decide

/-- Both pages are faulted in, the second first. -/
theorem lazy_agrees_with_eager_tiny : ∃ info₁ info₂ lazy eager p q,
      elfMapImageIntoProcess tinyFiles tinyImage (some [97]) 0 blankLoader = .ok info₁ lazy ∧
      elfMapImageIntoProcess tinyFiles tinyImage none 0 blankLoader = .ok info₂ eager ∧
      (faultAll tinyFiles [(0x401000, true), (0x400000, false)] lazy.space).pages 0x400000 =
        some p ∧ eager.space.pages 0x400000 = some q ∧ ∀ i < pageSize, p.bytes i = q.bytes i ∧
        value (Segment.byteAt tinyImage) (tinyImage.segments 0) (0x400000 + i) =
          some (p.bytes i) := by
  have hlazy : (success (elfMapImageIntoProcess tinyFiles tinyImage (some [97]) 0
      blankLoader)).any (fun r => ((faultAll tinyFiles [(0x401000, true), (0x400000, false)]
        r.2.space).pages 0x400000).isSome) := by decide
  have heager : (success (elfMapImageIntoProcess tinyFiles tinyImage none 0
      blankLoader)).isSome := by decide
  obtain ⟨⟨info₁, lazy⟩, hlazy, hpage⟩ := (Option.any_eq_true _ _).mp hlazy
  obtain ⟨⟨info₂, eager⟩, heager⟩ := isSome_iff_exists.mp heager
  obtain ⟨p, hp⟩ := isSome_iff_exists.mp hpage
  have hlazy := eq_ok_of_success hlazy
  have heager := eq_ok_of_success heager
  obtain ⟨q, hq, same⟩ := lazy_agrees_with_eager tinyFiles tinyImage [97] tinyFile rfl
    tinyFile_backs 0 (by rw [tinyImage_segments]; simp)
    (by rw [tinyImage_segments]; exact pairwise_singleton ..) _ _ blankLoader_fresh
    blankLoader_fresh _ _ lazy eager hlazy heager _ _ p hp
  exact ⟨info₁, info₂, lazy, eager, p, q, hlazy, heager, hp, hq, same⟩

end SmallOS.Exec
