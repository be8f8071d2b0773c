import SmallOS.Vfs.Handle
import SmallOS.Ext2.FileRefinement

/-! The page cache of a handle as one array of bytes: what the copy loops read and write,
how far an interrupted growth gets, and what a load leaves. -/

namespace SmallOS.Vfs
open Bytes Prog Ext2 Splice Function

variable {create : Bool} {page : Buf} {E : Errno → State → Prop} {o : FileObject} {pages : List Buf}
  {data : List UInt8} {ent len offset pos size : Nat} {source : Source} {s : State} {α : Type}
  {w : Vol}

def pageByte (pages : List Buf) (q : Nat) : UInt8 := (pages.getD (q / 4096) zeros) (q % 4096)

theorem pageByte_of_getElem? {q : Nat}
    (h : pages[q / 4096]? = some page) : pageByte pages q = page (q % 4096) := by
  rw [pageByte, List.getD_eq_getElem?_getD, h]
  rfl

theorem pageByte_append_zeros (pages : List Buf) (n q : Nat) :
    pageByte (pages ++ List.replicate n zeros) q = pageByte pages q := by
  unfold pageByte
  rw [getD_append]
  split_ifs with h
  · rfl
  · rw [getD_filling, List.getD_eq_default _ _ (not_lt.mp h)]

theorem pageByte_set {data : Buf} {chunk : Nat}
    (h : pages[pos / 4096]? = some page) (hchunk : pos % 4096 + chunk ≤ 4096) (q : Nat) :
    pageByte (pages.set (pos / 4096) (copy page (pos % 4096) chunk data)) q =
      if pos ≤ q ∧ q < pos + chunk then data (q - pos) else pageByte pages q := by
  obtain ⟨hlt, -⟩ := List.getElem?_eq_some_iff.mp h
  by_cases hpage : q / 4096 = pos / 4096
  · have hset : (pages.set (pos / 4096) (copy page (pos % 4096) chunk data))[q / 4096]? =
        some (copy page (pos % 4096) chunk data) := by
      rw [hpage, List.getElem?_set_self hlt]
    rw [pageByte_of_getElem? hset, pageByte_of_getElem? (hpage ▸ h)]
    simp only [copy]
    have hin : pos % 4096 ≤ q % 4096 ∧ q % 4096 < pos % 4096 + chunk ↔
        pos ≤ q ∧ q < pos + chunk := by omega
    simp only [hin]
    split_ifs with hq
    · congr 1
      omega
    · rfl
  · have hout : ¬(pos ≤ q ∧ q < pos + chunk) := by omega
    rw [if_neg hout]
    unfold pageByte
    rw [List.getD_eq_getElem?_getD, List.getElem?_set_ne (fun h => hpage h.symm),
      ← List.getD_eq_getElem?_getD]

theorem slice_eq_tabulate (buf : Buf) (off len : Nat) :
    slice buf off len = tabulate len fun i => buf (off + i) := rfl

theorem tabulate_add (m n : Nat) (f : Nat → α) :
    tabulate (m + n) f = tabulate m f ++ tabulate n fun i => f (m + i) := by
  simp only [tabulate, List.range_add, List.map_append, List.map_map]
  rfl

theorem getElem?_of_fits (h : pos < pages.length * 4096) : ∃ page, pages[pos / 4096]? = some page :=
  ⟨_, List.getElem?_eq_getElem (by omega)⟩

theorem chunk_bounds (pos : Nat) {copied : Nat} (more : copied < len) :
    0 < min (4096 - pos % 4096) (len - copied) ∧
      min (4096 - pos % 4096) (len - copied) ≤ len - copied ∧
      pos % 4096 + min (4096 - pos % 4096) (len - copied) ≤ 4096 := by
  omega

theorem copyFromPages_eq (fits : offset + len ≤ pages.length * 4096) :
    ∀ fuel copied, copied ≤ len → len ≤ copied + fuel → copyFromPages pages offset len fuel copied =
        some (tabulate (len - copied) fun i => pageByte pages (offset + copied + i)) := by
  intro fuel
  induction fuel with
  | zero =>
    intro copied hle hfuel
    rw [show len - copied = 0 by omega]
    rfl
  | succ fuel ih =>
    intro copied hle hfuel
    rw [copyFromPages]
    split_ifs with hmore
    · have hfits : offset + copied < pages.length * 4096 := by omega
      obtain ⟨page, hpage⟩ := getElem?_of_fits hfits
      obtain ⟨hpos, hrest, hin⟩ := chunk_bounds (offset + copied) hmore
      dsimp only
      rw [hpage]
      dsimp only
      generalize min (4096 - (offset + copied) % 4096) (len - copied) = chunk at *
      rw [ih (copied + chunk) (by omega) (by omega), Option.map_some]
      refine congrArg some ?_
      rw [show len - copied = chunk + (len - (copied + chunk)) by omega, tabulate_add,
        slice_eq_tabulate]
      congr 1
      · refine List.map_congr_left fun i hi => ?_
        have hi := List.mem_range.mp hi
        have hdiv : (offset + copied + i) / 4096 = (offset + copied) / 4096 := by omega
        rw [pageByte_of_getElem? (hdiv ▸ hpage)]
        congr 1
        omega
      · refine congrArg _ (funext fun i => ?_)
        congr 1
        omega
    · rw [show len - copied = 0 by omega]
      rfl

theorem vfsCopyFromCache_eq (hsize : offset + len ≤ o.size)
    (fits : offset + len ≤ o.pages.length * 4096) : vfsCopyFromCache o offset len =
      some (tabulate len fun i => pageByte o.pages (offset + i)) := by
  rw [vfsCopyFromCache, if_neg (by omega), copyFromPages_eq fits len 0 (by omega) (by omega)]
  rfl

theorem copyToPages_spec (data : Buf) :
    ∀ fuel copied (pages : List Buf), offset + len ≤ pages.length * 4096 → copied ≤ len →
      len ≤ copied + fuel → ∃ pages', copyToPages offset data len fuel copied pages = some pages' ∧
        pages'.length = pages.length ∧ ∀ q, pageByte pages' q =
          if offset + copied ≤ q ∧ q < offset + len then data (q - offset)
          else pageByte pages q := by
  intro fuel
  induction fuel with
  | zero =>
    intro copied pages fits hle hfuel
    exact ⟨pages, rfl, rfl, fun q => by rw [if_neg (by omega)]⟩
  | succ fuel ih =>
    intro copied pages fits hle hfuel
    rw [copyToPages]
    split_ifs with hmore
    · have hfits : offset + copied < pages.length * 4096 := by omega
      obtain ⟨page, hpage⟩ := getElem?_of_fits hfits
      obtain ⟨hpos, hrest, hin⟩ := chunk_bounds (offset + copied) hmore
      dsimp only
      rw [hpage]
      generalize min (4096 - (offset + copied) % 4096) (len - copied) = chunk at *
      obtain ⟨pages', hrun, hlen, hbytes⟩ := ih (copied + chunk)
        (pages.set ((offset + copied) / 4096)
          (copy page ((offset + copied) % 4096) chunk (data.shift copied)))
        (by rwa [List.length_set]) (by omega) (by omega)
      refine ⟨pages', hrun, by rw [hlen, List.length_set], fun q => ?_⟩
      rw [hbytes, pageByte_set hpage hin]
      by_cases hq : offset + (copied + chunk) ≤ q ∧ q < offset + len
      · rw [if_pos hq, if_pos (by omega)]
      · rw [if_neg hq]
        by_cases hq' : offset + copied ≤ q ∧ q < offset + copied + chunk
        · rw [if_pos hq', if_pos (by omega)]
          show data (copied + (q - (offset + copied))) = _
          congr 1
          omega
        · rw [if_neg hq', if_neg (by omega)]
    · exact ⟨pages, rfl, rfl, fun q => by rw [if_neg (by omega)]⟩

theorem vfsCopyToCache_spec (fits : offset + data.length ≤ pages.length * 4096) :
    ∃ pages', vfsCopyToCache pages offset data = some pages' ∧ pages'.length = pages.length ∧
      ∀ q, pageByte pages' q =
        if offset ≤ q ∧ q < offset + data.length then data.getD (q - offset) 0
        else pageByte pages q := by
  obtain ⟨pages', hrun, hlen, hbytes⟩ :=
    copyToPages_spec (ofList data) data.length 0 pages fits (by omega) (by omega)
  refine ⟨pages', ?_, hlen, hbytes⟩
  rw [vfsCopyToCache, if_neg (by omega)]
  exact hrun

structure Touched (ent : Nat) (o : FileObject) (s s' : State) : Prop where
  vol : s'.vol = s.vol
  objects : s'.objects = update s.objects ent (some o)
  roMap : s'.roMap = s.roMap
  alloc : s'.alloc = s.alloc
  clock : s'.clock = s.clock
  calls : s'.calls = s.calls
  diskFailed : s'.diskFailed = s.diskFailed

theorem Touched.refl (h : s.objects ent = some o) : Touched ent o s s :=
  ⟨rfl, by rw [← h, update_eq_self], rfl, rfl, rfl, rfl, rfl⟩

theorem Touched.trans {o1 o2 : FileObject} {s1 s2 : State} (h : Touched ent o1 s s1)
    (k : Touched ent o2 s1 s2) : Touched ent o2 s s2 :=
  ⟨k.vol.trans h.vol, by rw [k.objects, h.objects, update_idem], k.roMap.trans h.roMap,
    k.alloc.trans h.alloc, k.clock.trans h.clock, k.calls.trans h.calls,
    k.diskFailed.trans h.diskFailed⟩

theorem Touched.object {s' : State} (h : Touched ent o s s') : s'.objects ent = some o := by
  rw [h.objects, update_self]

theorem getObject_run (h : s.objects ent = some o) : getObject ent s = .ok o s := query_run h

theorem setObject_post {Q : Unit → State → Prop}
    (h : ∀ s', Touched ent o s s' → s'.starved = s.starved →
      s'.allocs = s.allocs → Q () s') : Post (setObject ent o) s Q E :=
  .assign (h _ ⟨rfl, rfl, rfl, rfl, rfl, rfl, rfl⟩ rfl rfl)

theorem bind_setObject {β : Type} {f : Unit → H β} {Q : β → State → Prop}
    (h : ∀ s', Touched ent o s s' → s'.starved = s.starved → Post (f ()) s' Q E) :
    Post (setObject ent o >>= f) s Q E :=
  .bind_assign (h _ ⟨rfl, rfl, rfl, rfl, rfl, rfl, rfl⟩ rfl)

theorem pmmAllocFrame_post {e : Errno} (h : s.objects ent = some o) : Post (pmmAllocFrame e) s
      (fun _ s' => Touched ent o s s' ∧ s.alloc s.allocs = true ∧ s'.allocs = s.allocs + 1 ∧
        s'.starved = s.starved)
      (fun e' s' => e' = e ∧ Touched ent o s s' ∧ s.alloc s.allocs = false ∧
        s'.allocs = s.allocs + 1 ∧ s'.starved = true) := by
  have same := (Touched.refl h).objects
  unfold Post pmmAllocFrame
  cases halloc : s.alloc s.allocs with
  | true => exact ⟨⟨rfl, same, rfl, rfl, rfl, rfl, rfl⟩, rfl, rfl, rfl⟩
  | false => exact ⟨rfl, ⟨rfl, same, rfl, rfl, rfl, rfl, rfl⟩, rfl, rfl, rfl⟩

def FileObject.grow (o : FileObject) (n : Nat) : FileObject :=
  { o with cache := some (o.pages ++ List.replicate n zeros) }

theorem FileObject.pages_grow (o : FileObject) (n : Nat) :
    (o.grow n).pages = o.pages ++ List.replicate n zeros := rfl

theorem FileObject.grow_grow (o : FileObject) (m n : Nat) : (o.grow m).grow n = o.grow (m + n) := by
  simp only [FileObject.grow, FileObject.pages, Option.getD_some, List.append_assoc,
    ← List.replicate_add]

theorem FileObject.grow_zero (table : o.cache.isSome) : o.grow 0 = o := by
  obtain ⟨pages, hpages⟩ := Option.isSome_iff_exists.mp table
  cases o
  simp_all [FileObject.grow, FileObject.pages]

def pagesFor (bytes : Nat) : Nat := (bytes + 4095) / 4096

def firstPage (s : State) (o : FileObject) : Nat := if o.cache.isSome then s.allocs else s.allocs + 1

structure StoppedAt (s : State) (o : FileObject) (n k : Nat) : Prop where
  early : k < n
  table : o.cache.isSome ∨ s.alloc s.allocs = true
  pages : ∀ i < k, s.alloc (firstPage s o + i) = true
  none : s.alloc (firstPage s o + k) = false

theorem StoppedAt.unique {n k k' : Nat} (h : StoppedAt s o n k)
    (h' : StoppedAt s o n k') : k = k' := by
  have one : ∀ {i j}, StoppedAt s o n i → StoppedAt s o n j → ¬i < j := by
    intro i j hi hj hlt
    have := hj.pages i hlt
    rw [hi.none] at this
    cases this
  have := one h h'
  have := one h' h
  omega

section

variable (h : s.objects ent = some o)
include h

theorem addPage_post (table : o.cache.isSome) : Post (addPage ent) s
      (fun _ s' => Touched ent (o.grow 1) s s' ∧ s.alloc s.allocs = true ∧
        s'.allocs = s.allocs + 1 ∧ s'.starved = s.starved)
      (fun e s' => e = .io ∧ Touched ent o s s' ∧ s.alloc s.allocs = false ∧
        s'.starved = true) := by
  obtain ⟨pages, hpages⟩ := Option.isSome_iff_exists.mp table
  refine .bind (pmmAllocFrame_post h) (fun _ _ ⟨he, t, no, _, hs⟩ => ⟨he, t, no, hs⟩) ?_
  rintro u s1 ⟨touched, yes, count, starved⟩
  refine .bind_run (getObject_run touched.object) (setObject_post fun s2 t2 starved2 count2 => ?_)
  refine ⟨?_, yes, count2.trans count, starved2.trans starved⟩
  have grown : o.grow 1 = { o with cache := o.cache.map (· ++ [zeros]) } := by
    simp [FileObject.grow, FileObject.pages, hpages]
  rw [grown]
  exact touched.trans t2

theorem addPages_post (table : o.cache.isSome) (n : Nat) :
    Post (steps (fun _ _ => addPage ent) n 0 ()) s
      (fun _ s' => Touched ent (o.grow n) s s' ∧ (∀ i < n, s.alloc (s.allocs + i) = true) ∧
        s'.starved = s.starved)
      (fun e s' => e = .io ∧ s'.starved = true ∧ ∃ k < n, Touched ent (o.grow k) s s' ∧
        (∀ i < k, s.alloc (s.allocs + i) = true) ∧ s.alloc (s.allocs + k) = false) := by
  refine (Post.loop (fun i _ s' => Touched ent (o.grow i) s s' ∧
    (∀ j < i, s.alloc (s.allocs + j) = true) ∧ s'.starved = s.starved ∧
    s'.allocs = s.allocs + i) n ?_ n 0 () s (Nat.zero_add _) ?_).weaken
    (fun _ _ h => ⟨h.1, h.2.1, h.2.2.1⟩)
  · rintro i - s1 hi ⟨touched, yes, starved, count⟩
    refine (addPage_post touched.object rfl).mono ?_ ?_
    · rintro u s2 ⟨t2, yes2, count2, starved2⟩
      rw [o.grow_grow] at t2
      refine ⟨touched.trans t2, fun j hj => ?_, starved2.trans starved, by omega⟩
      rcases Nat.lt_succ_iff_lt_or_eq.mp hj with hlt | rfl
      · exact yes j hlt
      · rw [← touched.alloc, ← count]
        exact yes2
    · rintro e s2 ⟨rfl, t2, no, starved2⟩
      refine ⟨rfl, starved2, i, hi, touched.trans t2, yes, ?_⟩
      rw [← touched.alloc, ← count]
      exact no
  · rw [FileObject.grow_zero table]
    exact ⟨Touched.refl h, fun j hj => absurd hj (Nat.not_lt_zero j), rfl, rfl⟩

theorem vfsFileEnsurePageTable_post : Post (vfsFileEnsurePageTable ent) s
      (fun _ s' => Touched ent (o.grow 0) s s' ∧ (o.cache.isSome ∨ s.alloc s.allocs = true) ∧
        s'.allocs = firstPage s o ∧ s'.starved = s.starved)
      (fun e s' => e = .io ∧ s'.starved = true ∧ o.cache = none ∧ s.alloc s.allocs = false ∧
        Touched ent o s s') := by
  refine .bind_run (getObject_run h) (.branch (fun table => .ret ?_) fun none => ?_)
  · rw [FileObject.grow_zero table]
    exact ⟨.refl h, .inl table, (if_pos table).symm, rfl⟩
  have hcache := Option.not_isSome_iff_eq_none.mp none
  refine .bind (pmmAllocFrame_post h) (fun _ _ ⟨he, t, no, _, hs⟩ => ⟨he, hs, hcache, no, t⟩) ?_
  rintro u s1 ⟨touched, yes, count, starved⟩
  refine setObject_post fun s2 t2 starved2 count2 => ?_
  have grown : o.grow 0 = { o with cache := some [] } := by
    simp [FileObject.grow, FileObject.pages, hcache]
  rw [grown]
  exact ⟨touched.trans t2, .inr yes, (count2.trans count).trans (if_neg none).symm,
    starved2.trans starved⟩

theorem vfsFileEnsureCapacity_post {bytes : Nat} (hpos : 0 < bytes) (hmax : bytes ≤ fileCacheMaxBytes) :
    Post (vfsFileEnsureCapacity ent bytes) s
      (fun _ s' => Touched ent (o.grow (pagesFor bytes - o.pages.length)) s s' ∧
        (∀ k, ¬StoppedAt s o (pagesFor bytes - o.pages.length) k) ∧ s'.starved = s.starved)
      (fun e s' => e = .io ∧ s'.starved = true ∧
        ((o.cache = none ∧ s.alloc s.allocs = false ∧ Touched ent o s s') ∨
          ∃ k, StoppedAt s o (pagesFor bytes - o.pages.length) k ∧
            Touched ent (o.grow k) s s')) := by
  have hneeded : (bytes + 4095) % 4294967296 / 4096 = pagesFor bytes := by
    unfold pagesFor fileCacheMaxBytes fdCachePages at *
    omega
  have hfew : ¬fdCachePages < pagesFor bytes := by
    unfold pagesFor fileCacheMaxBytes fdCachePages at *
    omega
  have hsome : 0 < pagesFor bytes := by
    unfold pagesFor
    omega
  unfold vfsFileEnsureCapacity
  rw [hneeded]
  refine .bind_run (getObject_run h) (.branch (fun many => absurd many hfew) fun _ => ?_)
  generalize pagesFor bytes - o.pages.length = n
  rw [if_pos hsome]
  refine .bind (vfsFileEnsurePageTable_post h) (fun _ _ he => ⟨he.1, he.2.1, .inl he.2.2⟩) ?_
  rintro u s1 ⟨touched, table, count, starved⟩
  refine (addPages_post touched.object rfl n).mono ?_ ?_
  · rintro u s' ⟨t', yes, starved'⟩
    rw [o.grow_grow, Nat.zero_add] at t'
    rw [touched.alloc, count] at yes
    refine ⟨touched.trans t', fun k stop => ?_, starved'.trans starved⟩
    have := yes k stop.early
    rw [stop.none] at this
    cases this
  · rintro e s' ⟨rfl, starved', k, hk, t', yes, no⟩
    rw [o.grow_grow, Nat.zero_add] at t'
    rw [touched.alloc, count] at yes no
    exact ⟨rfl, starved', .inr ⟨k, ⟨hk, table, yes, no⟩, touched.trans t'⟩⟩

theorem vfsFileLoadCache_loaded (loaded : o.pages ≠ [] ∨ o.size = 0) :
    vfsFileLoadCache ent s = .ok () s := by
  show (getObject ent >>= _ : H Unit) s = _
  simp only [run_bind, getObject_run h]
  by_cases hpages : o.pages.length ≠ 0
  · rw [if_pos hpages]
    rfl
  · have hsize : o.size = 0 := loaded.resolve_left fun hne =>
      hpages (fun hzero => hne (List.length_eq_zero_iff.mp hzero))
    rw [if_neg hpages, if_pos hsize]
    rfl

theorem vfsFileLoadCache_post {bytes : List UInt8}
    (empty : o.pages = []) (hpos : 0 < o.size) (hmax : o.size ≤ fileCacheMaxBytes)
    (hread : ext2ReadPathToSink s.vol o.name = some bytes) (hlen : bytes.length = o.size) :
    Post (vfsFileLoadCache ent) s
      (fun _ s' => (∃ pages, Touched ent { o with cache := some pages } s s' ∧
        pages.length = pagesFor o.size ∧ ∀ q, pageByte pages q = bytes.getD q 0) ∧
        (∀ k, ¬StoppedAt s o (pagesFor o.size) k) ∧ s'.starved = s.starved)
      (fun e s' => e = .io ∧ s'.starved = true ∧
        ((o.cache = none ∧ s.alloc s.allocs = false ∧ Touched ent o s s') ∨
          ∃ k, StoppedAt s o (pagesFor o.size) k ∧ Touched ent (o.grow k) s s')) := by
  have hgrowth := vfsFileEnsureCapacity_post h hpos hmax
  rw [empty, List.length_nil, Nat.sub_zero] at hgrowth
  refine .bind_run (getObject_run h) ?_
  rw [if_neg (by rw [empty]; decide), if_neg (by omega), if_neg (by omega)]
  refine .seq hgrowth ?_
  rintro u s1 ⟨touched, all, starved⟩
  refine .bind_get (.bind_run (getObject_run touched.object) ?_)
  have hread1 : ext2ReadPathToSink s1.vol (o.grow (pagesFor o.size)).name = some bytes := by
    rw [touched.vol]
    exact hread
  have hpages : (o.grow (pagesFor o.size)).pages = List.replicate (pagesFor o.size) zeros := by
    rw [o.pages_grow, empty, List.nil_append]
  have hfits : 0 + bytes.length ≤ (o.grow (pagesFor o.size)).pages.length * 4096 := by
    rw [hpages, List.length_replicate, hlen]
    unfold pagesFor
    omega
  obtain ⟨pages, hcopy, hcount, hbytes⟩ := vfsCopyToCache_spec hfits
  rw [hread1]
  dsimp only
  rw [hcopy]
  refine .branch (fun other => absurd hlen other) fun _ => ?_
  refine setObject_post fun s2 t2 starved2 _ =>
    ⟨⟨pages, touched.trans t2, ?_, fun q => ?_⟩, all, starved2.trans starved⟩
  · rw [hcount, hpages, List.length_replicate]
  · rw [hbytes, hpages, ← List.nil_append (List.replicate _ _), pageByte_append_zeros]
    split_ifs with hq
    · rfl
    · rw [List.getD_eq_default _ _ (by omega)]
      rfl

end

def Mounted (v : Vol) : Prop := Refines v (contents v) v

variable {v : Vol} {path : Path} {ino : Nat} {old : List UInt8}

theorem Mounted.of_refines {files : Files} (h : Refines v files w) : Mounted w :=
  ⟨h.ready, h.consistent, h.initialised, h.writable, rfl, h.clean, fun _ _ => rfl⟩

theorem Mounted.at (h : Mounted v) (t : UInt32) : Mounted (v.at t) :=
  Mounted.of_refines (Refines.at h t)

/-- The path is the name of the regular file `ino`, not a link to it. -/
structure Denotes (v : Vol) (path : Path) (ino : Nat) : Prop where
  regular : regularFile v path = some ino
  named : namedFile v path = some ino

theorem Denotes.congr (h : Denotes v path ino)
    (hv : Ready v) (hw : Ready w) (names : names w = names v) : Denotes w path ino := by
  refine ⟨?_, ?_⟩
  · rw [← h.regular, regularFile_eq hv, regularFile_eq hw, names]
  · rw [← h.named, namedFile_eq hv, namedFile_eq hw, names]

theorem Mounted.isFile (h : Mounted v)
    (hpath : regularFile v path = some ino) : inodeIsFile (table v ino) = true :=
  (regularFile_eq_some h.ready hpath).2.2

theorem ext2ReadAtPath_eq (h : Mounted v)
    (hpath : regularFile v path = some ino) (offset len : Nat) :
    ext2ReadAtPath v path offset len = some (((contents v ino).drop offset).take len) := by
  rw [Refines.read h.ready h, readFiles, hpath]
  rfl

theorem ext2ReadPathToSink_eq (h : Mounted v) (hpath : regularFile v path = some ino) :
    ext2ReadPathToSink v path = some (contents v ino) := by
  obtain ⟨⟨p, hres⟩, -, hfile⟩ := regularFile_eq_some h.ready hpath
  have hsize : (contents v ino).length = (table v ino).size := by rw [contents, length_tabulate]
  have hat := ext2ReadAtPath_eq h hpath 0 (table v ino).size
  rw [List.drop_zero, ← hsize, List.take_length] at hat
  rw [← hat, ext2ReadPathToSink, ext2ReadAtPath, hres]
  simp only [hfile, hsize, Nat.le_zero, Bool.not_true, Bool.false_eq_true, if_false, Nat.sub_zero,
    Nat.min_self]
  by_cases hzero : (table v ino).size = 0
  · rw [if_pos hzero, fileReadToSink, hzero]
    rfl
  · rw [if_neg hzero]

section

variable
  (reads : ∀ offset len, offset + len ≤ data.length → source offset len = some ((data.drop offset).take len))
include reads

theorem writeFromSourceLoop_eq :
    ∀ fuel offset nd, writeFromSourceLoop ino source data.length fuel offset nd =
      writeSourceLoop ino data fuel offset nd := by
  intro fuel
  induction fuel with
  | zero => exact fun _ _ => rfl
  | succ fuel ih =>
    intro offset nd
    rw [writeFromSourceLoop, writeSourceLoop]
    split_ifs with hmore
    · dsimp only
      rw [reads offset (min (data.length - offset) 65536) (by omega)]
      simp only [ih]
    · rfl

theorem ext2WritePathFromSource_eq :
    ext2WritePathFromSource path source data.length = ext2WritePath path data := by
  unfold ext2WritePathFromSource ext2WritePath writeFileFromSource
  refine congrArg _ (funext fun _ => ?_)
  split_ifs with hbig hempty
  · rfl
  · simp only [bind_pure]
  · simp only [writeFromSourceLoop_eq reads, bind_assoc, pure_bind, bind_pure_unit]

end

theorem onVol_post {x : Ext2.M α} {Q : α → Vol → Prop}
    {E : Fail → Vol → Prop} (h : Post x (s.vol.at (s.clock s.calls)) Q E) :
    Post (onVol x) s (fun a s' => ∃ v, s' = { s with vol := v, calls := s.calls + 1 } ∧ Q a v)
      (fun e s' => e = .io ∧ ∃ fail v, E fail v ∧ s' = { s with
        vol := v
        calls := s.calls + 1
        starved := s.starved || decide (fail ≠ Fail.refused)
        diskFailed := s.diskFailed || decide (fail ≠ Fail.refused) }) := by
  unfold Post onVol at *
  cases run : x (s.vol.at (s.clock s.calls)) with
  | ok a v => rw [run] at h; exact ⟨v, rfl, h⟩
  | error fail v => rw [run] at h; exact ⟨rfl, fail, v, h, rfl⟩

structure Landed (path : Path) (ino : Nat) (data : List UInt8) (w : Vol) : Prop where
  mounted : Mounted w
  denotes : Denotes w path ino
  contents : contents w ino = data

theorem Landed.of_refines (landed : Landed path ino old v)
    (h : Refines v (update (Ext2.contents v) ino data) w) : Landed path ino data w := by
  have hm := Mounted.of_refines h
  have hd := landed.denotes.congr landed.mounted.ready hm.ready h.names
  refine ⟨hm, hd, ?_⟩
  rw [h.arrays ino (hm.isFile hd.regular), update_self]

theorem Landed.at (h : Landed path ino data v) (t : UInt32) : Landed path ino data (v.at t) := by
  have hm := h.mounted.at t
  exact ⟨hm, h.denotes.congr h.mounted.ready hm.ready (Refines.at h.mounted t).names, h.contents⟩

section Driver

variable (landed : Landed path ino old v)
include landed

theorem ext2WritePath_landed (hdata : data.length ≤ maxWriteFileBytes) :
    Post (ext2WritePath path data) v (fun _ w => Landed path ino data w)
      (fun e _ => e = .noBlock) :=
  (write_refines landed.mounted landed.denotes.named hdata).weaken fun _ _ h => landed.of_refines h

theorem ext2WriteAtPath_landed (hdata : data ≠ [])
    (hend : max (offset + data.length) size ≤ maxWriteFileBytes) :
    Post (ext2WriteAtPath path offset data size create) v
      (fun n w => n = (overwrite 0 old offset data).length ∧
        Landed path ino (overwrite 0 old offset data) w) (fun e _ => e = .noBlock) := by
  refine (writeAt_refines landed.mounted landed.denotes.regular (by omega) (by omega)).weaken ?_
  rintro n w ⟨hn, h⟩
  simp only [FileCall.apply, hdata, if_false, landed.contents] at hn h
  exact ⟨hn, landed.of_refines h⟩

theorem ext2WriteAtPath_refused (hwrap : offset + data.length < 4294967296)
    (hend : maxWriteFileBytes < max (offset + data.length) size) :
    Post (ext2WriteAtPath path offset data size create) v (fun _ _ => False)
      (fun e w => e = .refused ∧ w = v) := by
  refine .bind_run (requireWritable_run landed.mounted.initialised landed.mounted.writable) ?_
  rw [if_neg (by omega), if_pos hend]
  exact .raise ⟨rfl, rfl⟩

theorem ext2ResizePath_landed (hsize : size ≤ maxWriteFileBytes) :
    Post (ext2ResizePath path size) v (fun _ w => Landed path ino (resize 0 old size) w)
      (fun e _ => e = .noBlock) := by
  rw [← landed.contents]
  exact (resize_refines landed.mounted landed.denotes.regular hsize).weaken
    fun _ _ h => landed.of_refines h

theorem ext2ResizePath_refused (hsize : maxWriteFileBytes < size) :
    Post (ext2ResizePath path size) v (fun _ _ => False) (fun e w => e = .refused ∧ w = v) :=
  ext2ResizePath_walk landed.mounted.ready ⟨rfl, rfl⟩ fun _ _ _ _ _ hs =>
    absurd hs (not_le.mpr hsize)

end Driver

end SmallOS.Vfs
