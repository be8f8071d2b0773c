import SmallOS.Exec.Elf
import SmallOS.Vm.Backing

/-! What mapping an image leaves in memory. The PT_LOAD headers of an image are a list of segments,
each with the pages it covers and the place in the image of each of its bytes. -/

namespace SmallOS.Exec

open Bytes Prog Ranges Vm Function Option Nat Area Image

variable {a : Area} {l : List Area} {s s' : Loader} {addr i n start : Nat} {p : Page}

def Image.load (img : Image) (bias phoff i : Nat) : Option Segment :=
  let at_ := phoff + phdrSize * i
  if readU32 img.bytes at_ = ptLoad ∧ readU32 img.bytes (at_ + 20) ≠ 0 then
    some ⟨wrap (bias + readU32 img.bytes (at_ + 8)), readU32 img.bytes (at_ + 20),
      readU32 img.bytes (at_ + 24), readU32 img.bytes (at_ + 16), readU32 img.bytes (at_ + 4)⟩
  else none

def Image.loads (img : Image) (bias phoff : Nat) : Nat → List Segment
  | 0 => []
  | n + 1 => (img.load bias phoff n).toList ++ img.loads bias phoff n

instance : Ranged Segment := ⟨Segment.mapStart, Segment.mapEnd⟩

@[simp] theorem Segment.lo_eq (g : Segment) : lo g = g.mapStart := rfl
@[simp] theorem Segment.hi_eq (g : Segment) : hi g = g.mapEnd := rfl

def Segment.source (g : Segment) (x : Nat) : Option Nat :=
  if g.vaddr ≤ x ∧ x < g.vaddr + g.filesz then some (wrap (g.offset + (x - g.vaddr))) else none

def Segment.byteAt (img : Image) (g : Segment) (x : Nat) : UInt8 :=
  match g.source x with
  | none => 0
  | some offset => img.bytes offset

def Segment.Fits (g : Segment) : Prop := g.vaddr + g.filesz ≤ g.mapEnd

structure SameSpace (s s' : Loader) : Prop where
  process : s'.process = s.process
  writes : s'.writes = s.writes

theorem SameSpace.refl (s : Loader) : SameSpace s s := ⟨rfl, rfl⟩

theorem SameSpace.trans {t u : Loader} (h : SameSpace s t) (k : SameSpace t u) :
    SameSpace s u := ⟨k.process.trans h.process, k.writes.trans h.writes⟩

theorem SameSpace.space (h : SameSpace s s') : s'.space = s.space := by
  rw [Loader.space, h.process, Loader.space]

variable {E : Unit → Loader → Prop} {space : Space} {src : Buf}

section

variable {α : Type} {img : Image} {offset : Nat} {f : Nat → L α} {Q : α → Loader → Prop}

theorem SameSpace.word (same : SameSpace s s')
    (h : ∀ t, SameSpace s t → Post (f (readU32 img.bytes offset)) t Q E) :
    Post (word img offset >>= f) s' Q E :=
  h _ ⟨same.process, same.writes⟩

theorem SameSpace.half (same : SameSpace s s')
    (h : ∀ t, SameSpace s t → Post (f (readU16 img.bytes offset)) t Q E) :
    Post (half img offset >>= f) s' Q E :=
  h _ ⟨same.process, same.writes⟩

end

theorem onSpace_post {α : Type} {x : M α} {Q : α → Space → Prop}
    {E : Unit → Space → Prop} (h : Post x s.space Q E) :
    Post (onSpace x) s (fun a s' => ∃ space, s' = s.setSpace space ∧ Q a space)
      (fun e s' => ∃ space, s' = s.setSpace space ∧ E e space) := by
  unfold Post onSpace at *
  cases run : x s.space with
  | ok a space => rw [run] at h; exact ⟨space, rfl, h⟩
  | error e space => rw [run] at h; exact ⟨space, rfl, h⟩

theorem mapHeader_post {fs : Files} {img : Image} {path : Option Path} {type bias phoff : Nat}
    {bounds : Nat × Nat} {Q : Loader → Prop}
    (skip : img.load bias phoff i = none → ∀ s', SameSpace s s' → Q s')
    (refuse : ∀ s', SameSpace s s' → E () s')
    (place : ∀ g, img.load bias phoff i = some g → ∀ s', SameSpace s s' →
      userCodeBase ≤ g.mapStart → g.mapEnd < userStackTop →
      Post (placeSegment fs img path type g) s' (fun _ s'' => Q s'') E) :
    Post (mapHeader fs img path type bias phoff i bounds) s (fun _ s' => Q s') E := by
  refine (SameSpace.refl s).word fun s1 same => .branch (fun hload => ?_) fun hload => ?_
  · refine .ret (skip ?_ s1 same)
    rw [load, if_neg (by tauto)]
  refine same.word fun s2 same => .branch (fun hmem => ?_) fun hmem => ?_
  · refine .ret (skip ?_ s2 same)
    rw [load, if_neg (by tauto)]
  refine same.word fun s3 same => .guard (refuse s3 same) fun range => ?_
  refine same.word fun s4 same => same.word fun s5 same => same.word fun s6 same => ?_
  have hsome : img.load bias phoff i = some _ := if_pos ⟨not_not.mp hload, hmem⟩
  refine .seq (place _ hsome s6 same ?_ ?_) fun _ s' h => .ret h
  · exact not_lt.mp fun h => range (.inl h)
  · exact not_le.mp fun h => range (.inr h)

def Image.type (img : Image) : Nat := readU16 img.bytes 16
def Image.phoff (img : Image) : Nat := readU32 img.bytes 28
def Image.phnum (img : Image) : Nat := readU16 img.bytes 44

def Image.bias (img : Image) (dynBase : Nat) : Nat := if img.type = etDyn then dynBase else 0

def Image.segments (img : Image) (dynBase : Nat) : List Segment :=
  img.loads (img.bias dynBase) img.phoff img.phnum

def Image.valid (img : Image) : Bool :=
  decide (readU32 img.bytes 0 = elfMagic ∧ readU16 img.bytes 18 = 3 ∧
    readU16 img.bytes 42 = phdrSize ∧ img.phnum ≠ 0 ∧ (img.type = etExec ∨ img.type = etDyn))

theorem elfValidHeader_post (img : Image) (s : Loader) :
    Post (elfValidHeader img) s (fun b s' => b = img.valid ∧ SameSpace s s') E := by
  refine (SameSpace.refl s).word fun s1 same => ?_
  refine Post.branch (fun h => Post.ret ⟨by simp [valid, h], same⟩) fun magic => ?_
  refine same.half fun s2 same => ?_
  refine Post.branch (fun h => Post.ret ⟨by simp [valid, h], same⟩) fun machine => ?_
  refine same.half fun s3 same => ?_
  refine Post.branch (fun h => Post.ret ⟨by simp [valid, h], same⟩) fun entry => ?_
  refine same.half fun s4 same => ?_
  refine Post.branch (fun h => Post.ret ⟨by simp [valid, phnum, h], same⟩) fun count => ?_
  refine same.half fun s5 same => .ret ⟨?_, same⟩
  simp only [ne_eq, not_not] at magic machine entry
  simp only [valid, magic, machine, entry, true_and]
  exact decide_eq_decide.mpr ⟨fun h => ⟨count, h⟩, And.right⟩

theorem elfVaddrFrom_post (img : Image) (phoff bias offset : Nat) : ∀ n i s', SameSpace s s' →
    Post (elfVaddrFrom img phoff bias offset n i) s' (fun _ t => SameSpace s t) E := by
  intro n
  induction n with
  | zero => exact fun i s' same => .ret same
  | succ n ih =>
    intro i s' same
    refine same.word fun s1 same => .branch (fun _ => ih (i + 1) s1 same) fun _ => ?_
    refine same.word fun s2 same => same.word fun s3 same => ?_
    refine .branch (fun _ => ?_) fun _ => ih (i + 1) s3 same
    exact same.word fun s4 same => .ret same

theorem elfVaddrForFileOffset_post (img : Image) (bias offset : Nat) (same : SameSpace s s') :
    Post (elfVaddrForFileOffset img bias offset) s' (fun _ t => SameSpace s t) E := by
  exact same.word fun s1 same => same.half fun s2 same => elfVaddrFrom_post img _ bias offset _ 0 s2 same

def Image.interpFrom (img : Image) (phoff : Nat) : (n i : Nat) → Option Path
  | 0, _ => none
  | n + 1, i =>
    let at_ := phoff + phdrSize * i
    let filesz := readU32 img.bytes (at_ + 16)
    if readU32 img.bytes at_ ≠ ptInterp then img.interpFrom phoff n (i + 1)
    else if filesz = 0 ∨ fdNameMax ≤ filesz then none
    else some (interpName img (readU32 img.bytes (at_ + 4)) filesz)

def Image.interp (img : Image) : Option Path := img.interpFrom img.phoff img.phnum 0

theorem interpFrom_post (img : Image) (phoff : Nat) :
    ∀ n i s', SameSpace s s' → Post (interpFrom img phoff n i) s'
      (fun v t => v = img.interpFrom phoff n i ∧ SameSpace s t) E := by
  intro n
  induction n with
  | zero => exact fun i s' same => .ret ⟨rfl, same⟩
  | succ n ih =>
    intro i s' same
    unfold interpFrom Image.interpFrom
    refine same.word fun s1 same => .branch (fun other => ?_) fun interp => ?_
    · rw [if_pos other]
      exact ih (i + 1) s1 same
    rw [if_neg interp]
    refine same.word fun s2 same => ?_
    refine .branch (fun bad => .ret ⟨(if_pos bad).symm, same⟩) fun good => ?_
    exact same.word fun s3 same => ⟨(if_neg good).symm, same.process, same.writes⟩

theorem elfCopyInterpPath_post (img : Image) (s : Loader) :
    Post (elfCopyInterpPath img) s (fun v s' => v = img.interp ∧ SameSpace s s') E := by
  exact (SameSpace.refl s).word fun s1 same => same.half fun s2 same =>
    interpFrom_post img _ _ 0 s2 same

section Load

variable {fs : Files} {img : Image} {path : Option Path} {dynBase : Nat}
  {I : List Segment → Loader → Prop} {E : Unit → Loader → Prop}

/-- An invariant of the segments placed so far, which depends on the memory only, holds of
the whole image when placing one more segment keeps it. -/
theorem elfMapImageIntoProcess_post (same : ∀ segs s s', I segs s → SameSpace s s' → I segs s')
    (err : ∀ segs s, I segs s → E () s)
    (place : ∀ n < img.phnum, ∀ g, img.load (img.bias dynBase) img.phoff n = some g → ∀ s,
      I (img.loads (img.bias dynBase) img.phoff n) s →
      userCodeBase ≤ g.mapStart → g.mapEnd < userStackTop →
      Post (placeSegment fs img path img.type g) s
        (fun _ s' => I (g :: img.loads (img.bias dynBase) img.phoff n) s') E) (start : I [] s) :
    Post (elfMapImageIntoProcess fs img path dynBase) s
      (fun _ s' => I (img.segments dynBase) s') E := by
  refine .seq (elfValidHeader_post img s) ?_
  rintro _ s1 ⟨rfl, same1⟩
  refine .guard (err [] s1 (same _ _ _ start same1)) fun _ => ?_
  refine same1.half fun s2 same2 => same2.word fun s3 same3 => same3.half fun s4 same4 => ?_
  refine .seq (.loop (fun n _ s' => I (img.loads (img.bias dynBase) img.phoff n) s') img.phnum ?_
    img.phnum 0 _ s4 (Nat.zero_add _) (same _ _ _ start same4)) ?_
  · intro n bounds s' hn inv
    refine mapHeader_post ?_ (fun s'' hs => err _ _ (same _ _ _ inv hs)) ?_
    · intro hnone s'' hs
      have hnone : img.load (img.bias dynBase) img.phoff n = none := hnone
      rw [loads, hnone]
      exact same _ _ _ inv hs
    · intro g hsome s'' hs low high
      have hsome : img.load (img.bias dynBase) img.phoff n = some g := hsome
      rw [loads, hsome]
      exact place n hn g hsome s'' (same _ _ _ inv hs) low high
  · intro bounds s5 inv
    refine .guard (err _ _ inv) fun _ => ?_
    refine (SameSpace.refl s5).word fun s6 same6 => .seq (elfVaddrForFileOffset_post img _ _ same6) ?_
    exact fun phdr s7 same7 => .ret (same _ _ _ inv same7)

end Load

def Covered (l : List Area) (x : Nat) : Prop := ∃ a ∈ l, Covers a x

theorem covered_iff_value {β : Type} {f : Area → Nat → β} {x : Nat} :
    Covered l x ↔ value f l x ≠ none := by
  rw [Ne, value_none]
  push Not
  rfl

theorem Covered.page {page : Nat} (h : Covered l page) (sound : Sound l)
    (aligned : page % pageSize = 0) (hi : i < pageSize) : Covered l (page + i) := by
  obtain ⟨a, ha, hlo, hhi⟩ := h
  have hstop := (sound.valid a ha).stopAligned
  simp only [lo_eq, hi_eq] at hlo hhi
  refine ⟨a, ha, hlo.trans (Nat.le_add_right ..), ?_⟩
  show page + i < a.stop
  unfold pageSize at *
  omega

theorem Added.covered_iff {l' : List Area} (sound : Sound l) (h : Added a l l')
    (x : Nat) : Covered l' x ↔ (a.start ≤ x ∧ x < a.stop) ∨ Covered l x := by
  rw [covered_iff_value (f := attrs), covered_iff_value (f := attrs), (added_attrs sound h).2 x]
  split
  · simp only [ne_eq, reduceCtorEq, not_false_eq_true, true_iff]
    exact .inl ‹_›
  · tauto

/-- Pages are present and user memory has been written in areas only. -/
structure Safe (s : Loader) : Prop where
  sound : Sound s.space.areas
  present : ∀ page, (s.space.pages page).isSome →
    page % pageSize = 0 ∧ Covered s.space.areas page
  writes : ∀ w ∈ s.writes, ∀ k < w.2, Covered s.space.areas (w.1 + k)

theorem Safe.congr (h : Safe s) (areas : s'.space.areas = s.space.areas)
    (pages : s'.space.pages = s.space.pages) (writes : s'.writes = s.writes) : Safe s' := by
  refine ⟨?_, ?_, ?_⟩
  · rw [areas]
    exact h.sound
  · rw [areas, pages]
    exact h.present
  · rw [areas, writes]
    exact h.writes

theorem Safe.same (h : Safe s) (same : SameSpace s s') : Safe s' := by
  exact h.congr (by rw [same.space]) (by rw [same.space]) same.writes

theorem Safe.kept (h : Safe s) (kept : Kept s.space space) : Safe (s.setSpace space) :=
  h.congr kept.areas kept.pages rfl

theorem pageFloor_aligned (x : Nat) : pageFloor x % pageSize = 0 := mul_mod_left ..

theorem pageFloor_add_mod (x : Nat) : pageFloor x + x % pageSize = x := div_add_mod' ..

theorem Safe.mapPage (h : Safe s) {page : Nat} (areas : space.areas = s.space.areas)
    (aligned : page % pageSize = 0) (covered : Covered s.space.areas page)
    (pages : space.pages = update s.space.pages page (some p)) : Safe (s.setSpace space) := by
  refine ⟨?_, ?_, ?_⟩
  · show Sound space.areas
    rw [areas]
    exact h.sound
  · intro q hq
    show _ ∧ Covered space.areas q
    rw [areas]
    replace hq : (space.pages q).isSome := hq
    by_cases heq : q = page
    · rw [heq]
      exact ⟨aligned, covered⟩
    · rw [pages, update_of_ne heq] at hq
      exact h.present q hq
  · show ∀ w ∈ s.writes, ∀ k < w.2, Covered space.areas (w.1 + k)
    rw [areas]
    exact h.writes

def mappedPages (start n : Nat) (pages : Nat → Option Page) : Nat → Option Page := fun page =>
  if start ≤ page ∧ page < start + pageSize * n ∧ page % pageSize = 0 then
    match pages page with
    | none => some ⟨true, false, false, false, zeros⟩
    | some p => some { p with write := true }
  else pages page

theorem mappedPages_succ (aligned : start % pageSize = 0) (n : Nat) (pages : Nat → Option Page) :
    mappedPages start (n + 1) pages = update (mappedPages start n pages) (start + pageSize * n)
        (match pages (start + pageSize * n) with
          | none => some ⟨true, false, false, false, zeros⟩
          | some p => some { p with write := true }) := by
  funext page
  have hlast : (start + pageSize * n) % pageSize = 0 := by
    rw [add_mul_mod_self_left]
    exact aligned
  by_cases heq : page = start + pageSize * n
  · rw [heq, update_self, mappedPages, if_pos]
    refine ⟨Nat.le_add_right .., ?_, hlast⟩
    unfold pageSize
    omega
  · rw [update_of_ne heq, mappedPages, mappedPages]
    have : start ≤ page ∧ page < start + pageSize * (n + 1) ∧ page % pageSize = 0 ↔
        start ≤ page ∧ page < start + pageSize * n ∧ page % pageSize = 0 := by
      unfold pageSize at *
      omega
    simp only [this]

theorem elfMapPages_post (aligned : start % pageSize = 0) (count : Nat) (s : Space) :
    Post (elfMapPages start count) s
      (fun _ s' => s'.areas = s.areas ∧ s'.pages = mappedPages start count s.pages)
      (fun _ s' => s'.areas = s.areas ∧ ∃ n ≤ count, s'.pages = mappedPages start n s.pages) := by
  refine .loop (fun i _ s' => s'.areas = s.areas ∧ s'.pages = mappedPages start i s.pages)
    count ?_ count 0 () s (Nat.zero_add _) ⟨rfl, ?_⟩
  · rintro i - s1 hi ⟨areas, pages⟩
    refine .bind_get ?_
    have here : s1.pages (start + pageSize * i) = s.pages (start + pageSize * i) := by
      rw [pages, mappedPages, if_neg]
      omega
    have next := mappedPages_succ aligned i s.pages
    rw [← pages] at next
    rw [here]
    cases hpage : s.pages (start + pageSize * i) with
    | none =>
      refine .bind (allocate_post s1) ?_ ?_
      · intro e s2 kept
        exact ⟨kept.areas.trans areas, i, hi.le, kept.pages.trans pages⟩
      rintro u s2 ⟨kept, -⟩
      refine .assign ⟨kept.areas.trans areas, ?_⟩
      rw [next, hpage, kept.pages]
    | some p =>
      refine .assign ⟨areas, ?_⟩
      rw [next, hpage]
  · funext page
    rw [mappedPages, if_neg]
    omega

theorem processVmFaultInPage_post {fs : Files} {s : Space}
    (absent : s.pages (pageFloor addr) = none) : Post (processVmFaultInPage fs addr true) s
      (fun _ s' => s'.areas = s.areas ∧ Covered s.areas (pageFloor addr) ∧
        ∃ p, s'.pages = update s.pages (pageFloor addr) (some p)) (fun _ s' => Kept s s') := by
  refine .bind_get ?_
  rw [absent]
  refine (processVmHandleFault_post ..).weaken ?_
  rintro u s' ⟨a, p, handled⟩
  exact ⟨handled.areas, ⟨a, find_some handled.found⟩, p, handled.pages⟩

def byteOf (s : Space) (x : Nat) : Option UInt8 :=
  (s.pages (pageFloor x)).map (·.bytes (x % pageSize))

theorem byteOf_store {s s' : Space}
    (hpage : s.pages (pageFloor addr) = some p) (hn : n ≤ pageSize - addr % pageSize)
    (pages : s'.pages = update s.pages (pageFloor addr)
      (some (storePage p (addr % pageSize) n src))) (x : Nat) :
    byteOf s' x = if addr ≤ x ∧ x < addr + n then some (src (x - addr)) else byteOf s x := by
  have hx := pageFloor_add_mod x
  have ha := pageFloor_add_mod addr
  rw [byteOf, pages]
  by_cases hsame : pageFloor x = pageFloor addr
  · rw [hsame, update_self, map_some]
    by_cases hin : addr ≤ x ∧ x < addr + n
    · rw [if_pos hin, storePage, copy_of_inside (by omega) (by omega)]
      congr 2
      omega
    · rw [if_neg hin, storePage, copy_of_outside (by omega), byteOf, hsame, hpage, map_some]
  · rw [update_of_ne hsame, if_neg, byteOf]
    intro hin
    have hsame : ¬x / 4096 * 4096 = addr / 4096 * 4096 := hsame
    unfold pageSize at hn
    omega

theorem userPage_post (fs : Files) (addr : Nat) (s : Loader) : Post (userPage fs addr) s
      (fun p s' => s'.space.areas = s.space.areas ∧ (Safe s → Safe s') ∧
        s'.space.pages (pageFloor addr) = some p ∧
        ((s.space.pages (pageFloor addr)).isSome → s' = s) ∧
        ∀ x b, byteOf s.space x = some b → byteOf s'.space x = some b)
      (fun _ s' => s'.space.areas = s.space.areas ∧ (Safe s → Safe s')) := by
  refine .bind_get ?_
  cases hpage : s.space.pages (pageFloor addr) with
  | some p =>
    rw [if_neg (by exact Bool.false_ne_true)]
    refine .bind_get ?_
    rw [hpage]
    exact .ret ⟨rfl, id, hpage, fun _ => rfl, fun _ _ h => h⟩
  | none =>
    rw [if_pos isNone_none]
    refine .bind (onSpace_post (processVmFaultInPage_post hpage)) ?_ ?_
    · rintro e _ ⟨space, rfl, kept⟩
      exact ⟨kept.areas, fun safe => safe.kept kept⟩
    rintro u _ ⟨space, rfl, areas, covered, p, pages⟩
    have hnew : space.pages (pageFloor addr) = some p := by rw [pages, update_self]
    refine .bind_get ?_
    rw [show (s.setSpace space).space.pages (pageFloor addr) = _ from hnew]
    refine .ret ⟨areas, fun safe => safe.mapPage areas (pageFloor_aligned addr) covered pages, hnew,
      nofun, fun x b hb => ?_⟩
    -- a byte that is there lies in another page
    have hne : pageFloor x ≠ pageFloor addr := by
      intro heq
      rw [byteOf, heq, hpage] at hb
      cases hb
    change byteOf space x = some b
    rw [byteOf, pages, update_of_ne hne]
    exact hb

theorem noteSource_post (image : Option Nat) (copied chunk : Nat) (s : Loader) :
    Post (noteSource image copied chunk) s (fun _ s' => SameSpace s s') E := by
  cases image with
  | none => exact .ret (SameSpace.refl s)
  | some offset => exact ⟨rfl, rfl⟩

theorem storeChunk_post (hpage : s.space.pages (pageFloor addr) = some p)
    (hn : n ≤ pageSize - addr % pageSize) :
    Post (storeChunk addr n src p) s (fun _ s' => s'.space.areas = s.space.areas ∧
        (Safe s → Safe s' ∧ ∀ k < n, Covered s.space.areas (addr + k)) ∧ ∀ x, byteOf s'.space x =
          if addr ≤ x ∧ x < addr + n then some (src (x - addr)) else byteOf s.space x) E := by
  refine .assign ⟨rfl, fun safe => ?_, byteOf_store hpage hn rfl⟩
  have aligned := pageFloor_aligned addr
  have covered := (safe.present (pageFloor addr) (by rw [hpage]; rfl)).2
  have inside : ∀ k < n, Covered s.space.areas (addr + k) := by
    intro k hk
    have := covered.page safe.sound aligned (i := addr % pageSize + k) (by omega)
    rwa [← Nat.add_assoc, pageFloor_add_mod] at this
  have mapped : Safe (s.setSpace { s.space with
      pages := update s.space.pages (pageFloor addr)
        (some (storePage p (addr % pageSize) n src)) }) :=
    safe.mapPage rfl aligned covered rfl
  refine ⟨⟨mapped.sound, mapped.present, ?_⟩, inside⟩
  intro w hw
  rcases List.mem_cons.mp hw with rfl | hw
  · exact inside
  · exact safe.writes w hw

theorem wrap_add_of_chunk {va copied k : Nat} (h : copied ≤ k)
    (hk : k - copied < pageSize - wrap (va + copied) % pageSize) :
    wrap (va + k) = wrap (va + copied) + (k - copied) := by
  unfold wrap pageSize at *
  omega

/-- The bytes `lo` to `hi` of `src` are at `va` on, and where all of them had a page nothing else
has changed. -/
structure Written (va : Nat) (src : Buf) (lo hi : Nat) (s s' : Space) : Prop where
  holds : ∀ k, lo ≤ k → k < hi → byteOf s' (va + k) = some (src k)
  keeps : ∀ x b, ¬(va + lo ≤ x ∧ x < va + hi) → byteOf s x = some b → byteOf s' x = some b
  only : (∀ x, va + lo ≤ x → x < va + hi → (byteOf s x).isSome) →
    ∀ x, ¬(va + lo ≤ x ∧ x < va + hi) → byteOf s' x = byteOf s x

theorem Written.trans {va lo mid hi : Nat} {s t u : Space}
    (h : Written va src lo mid s t) (h' : Written va src mid hi t u) (hlo : lo ≤ mid)
    (hhi : mid ≤ hi) : Written va src lo hi s u := by
  have kept (x : Nat) (hx : ¬(va + mid ≤ x ∧ x < va + hi)) (some : (byteOf t x).isSome) :
      byteOf u x = byteOf t x := by
    obtain ⟨b, hb⟩ := isSome_iff_exists.mp some
    rw [h'.keeps x b hx hb, hb]
  refine ⟨fun k hk hlt => ?_, fun x b hx hb => ?_, fun present x hx => ?_⟩
  · by_cases hmid : mid ≤ k
    · exact h'.holds k hmid hlt
    · have old := h.holds k hk (by omega)
      rw [kept _ (by omega) (by rw [old]; rfl), old]
  · exact h'.keeps x b (by omega) (h.keeps x b (by omega) hb)
  · have before := h.only fun y hy hlt => present y hy (by omega)
    rw [h'.only (fun y hy hlt => ?_) x (by omega), before x (by omega)]
    rw [before y (by omega)]
    exact present y (by omega) hlt

structure Copied (va : Nat) (src : Buf) (lo hi : Nat) (s s' : Loader) : Prop where
  areas : s'.space.areas = s.space.areas
  safe : Safe s → Safe s'
  covered : Safe s → ∀ k, lo ≤ k → k < hi → Covered s.space.areas (wrap (va + k))
  bytes : va + hi ≤ 2 ^ 32 → Written va src lo hi s.space s'.space

theorem copyChunks_post (fs : Files) (va : Nat) (src : Buf) (image : Option Nat) (len : Nat) :
    ∀ rounds copied s, len ≤ copied + rounds → Post (copyChunks fs va src image len rounds copied) s
        (fun _ s' => Copied va src copied len s s')
        (fun _ s' => s'.space.areas = s.space.areas ∧ (Safe s → Safe s')) := by
  intro rounds
  have nothing (copied : Nat) (s : Loader) (done : len ≤ copied) : Copied va src copied len s s :=
    ⟨rfl, id, fun _ k _ _ => by omega, fun _ => ⟨fun k _ _ => by omega, fun _ _ _ h => h,
      fun _ _ _ => rfl⟩⟩
  induction rounds with
  | zero => exact fun copied s hlen => .ret (nothing copied s hlen)
  | succ n ih =>
    intro copied s hlen
    refine .branch (fun more => ?_) fun done => .ret (nothing copied s (not_lt.mp done))
    dsimp only
    generalize hat : wrap (va + copied) = cur
    have hmod := mod_lt cur (show 0 < pageSize by decide)
    generalize hchunk : min (pageSize - cur % pageSize) (len - copied) = chunk
    refine .seq (userPage_post fs cur s) ?_
    rintro p s1 ⟨areas1, safe1, hpage, present, kept⟩
    refine .seq (noteSource_post ..) ?_
    rintro u s2 same
    have space := same.space
    refine Post.bind (storeChunk_post (n := chunk) (space ▸ hpage) (by omega))
      (E := fun _ s' => s'.space.areas = s.space.areas ∧ (Safe s → Safe s'))
      (F := fun _ _ => False) (fun _ _ h => h.elim) ?_
    rintro u s3 ⟨areas3, stores, bytes⟩
    rw [space] at areas3 stores bytes
    have areas : s3.space.areas = s.space.areas := areas3.trans areas1
    have safe3 : Safe s → Safe s3 := fun h => (stores ((safe1 h).same same)).1
    refine (ih (copied + chunk) s3 (by omega)).mono ?_ fun _ _ h =>
      ⟨h.1.trans areas, fun safe => h.2 (safe3 safe)⟩
    rintro u s' rest
    refine ⟨rest.areas.trans areas, fun h => rest.safe (safe3 h), fun h k hlo hhi => ?_,
      fun hwrap => ?_⟩
    · by_cases hk : k < copied + chunk
      · have := (stores ((safe1 h).same same)).2 (k - copied) (by omega)
        rwa [areas1, ← hat, ← wrap_add_of_chunk hlo (by rw [hat]; omega)] at this
      · have := rest.covered (safe3 h) k (by omega) hhi
        rwa [areas] at this
    · obtain rfl : cur = va + copied := hat.symm.trans (mod_eq_of_lt (by omega))
      refine Written.trans ⟨fun k hk hlt => ?_, fun x b hx hb => ?_, fun some x hx => ?_⟩
        (rest.bytes hwrap) (Nat.le_add_right ..) (by omega)
      · rw [bytes, if_pos (by omega)]
        change some (src (copied + (va + k - (va + copied)))) = _
        congr 2
        omega
      · rw [bytes, if_neg (by omega)]
        exact kept x b hb
      · have old := some (va + copied) (by omega) (by omega)
        rw [byteOf, isSome_map] at old
        rw [bytes, if_neg (by omega), present old]

theorem Safe.added (safe : Safe s)
    (added : Added a s.space.areas space.areas) (pages : space.pages = s.space.pages) :
    Safe (s.setSpace space) := by
  have covered := fun x => Added.covered_iff safe.sound added x
  refine ⟨(added_attrs safe.sound added).1, ?_, ?_⟩
  · intro page hpage
    replace hpage : (space.pages page).isSome := hpage
    rw [pages] at hpage
    obtain ⟨aligned, old⟩ := safe.present page hpage
    exact ⟨aligned, (covered page).mpr (.inr old)⟩
  · intro w hw k hk
    exact (covered _).mpr (.inr (safe.writes w hw k hk))

theorem Safe.mappedPages (safe : Safe s) (areas : space.areas = s.space.areas)
    (pages : space.pages = mappedPages start n s.space.pages)
    (covered : ∀ x, start ≤ x → x < start + pageSize * n → Covered s.space.areas x) :
    Safe (s.setSpace space) := by
  refine ⟨?_, ?_, ?_⟩
  · show Sound space.areas
    rw [areas]
    exact safe.sound
  · intro page hpage
    replace hpage : (space.pages page).isSome := hpage
    show _ ∧ Covered space.areas page
    rw [areas]
    rw [pages, Exec.mappedPages] at hpage
    split at hpage
    · rename_i h
      exact ⟨h.2.2, covered page h.1 h.2.1⟩
    · exact safe.present page hpage
  · show ∀ w ∈ s.writes, ∀ k < w.2, Covered space.areas (w.1 + k)
    rw [areas]
    exact safe.writes

theorem Segment.mapStart_aligned (g : Segment) : g.mapStart % pageSize = 0 := pageFloor_aligned _

theorem Segment.pages_end {g : Segment} (h : g.mapStart ≤ g.mapEnd) :
    g.mapStart + pageSize * ((g.mapEnd - g.mapStart) / pageSize) = g.mapEnd := by
  have hstart := g.mapStart_aligned
  have hend : g.mapEnd % pageSize = 0 := mul_mod_left ..
  unfold pageSize at *
  omega

end SmallOS.Exec
