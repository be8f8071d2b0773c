import SmallOS.Ext2.Times
import SmallOS.Vfs.RoMap

/-! Coherence of the shared pages. A cached page is right as long as the file has the same times
only while it has the same contents. Writes drop the pages cached under their own path. -/

namespace SmallOS.Vfs

open Bytes Prog Ext2 Splice List

variable {roMap : List (Option RoEntry)} {data : List UInt8} {size : Nat} {α β : Type}

theorem contents_congr {v w : Vol} {j : Nat} (h : SameFile v w j) (hfile : inodeIsFile (table v j) = true) :
    contents w j = contents v j := by
  rw [contents, contents, h.record]
  refine congrArg _ (funext fun q => ?_)
  have := h.fileByte (inodeIsSpecial_of_isFile hfile) q
  rwa [h.record] at this

section

variable {v : Vol} (t : UInt32)

theorem names_at (hv : Ready v) (hc : Consistent v) : names (v.at t) = names v :=
  names_congr hv (hv.at t) hc (hc.at t) fun _ => .of_disk hc rfl fun _ _ => rfl

theorem creates_at (hv : Ready v) (hc : Consistent v) {path : Path} :
    Creates (v.at t) path ↔ Creates v path := by
  have hnames := names_at t hv hc
  have hres : resolveCreatePath (v.at t) path = resolveCreatePath v path := by
    unfold resolveCreatePath resolvePath
    rw [resolvePathEx_eq (hv.at t), resolvePathEx_eq hv, hnames]
    rfl
  unfold Creates
  rw [hres]
  refine exists_congr fun c => and_congr_right fun hres => ?_
  have hparent := (resolveCreatePath_eq_some hv hres).parent
  have hfind := congrFun (congrFun (congrArg Names.find hnames) c.parentIno) c.leaf
  rw [hparent]
  exact iff_of_eq (congrArg (· = none) hfind)

end

structure Still (s s' : State) : Prop where
  vol : s'.vol = s.vol
  roMap : s'.roMap = s.roMap
  clock : s'.clock = s.clock
  calls : s'.calls = s.calls
  diskFailed : s'.diskFailed = s.diskFailed

instance : Std.Refl Still := ⟨fun _ => ⟨rfl, rfl, rfl, rfl, rfl⟩⟩

instance : IsTrans State Still :=
  ⟨fun _ _ _ h k => ⟨k.vol.trans h.vol, k.roMap.trans h.roMap, k.clock.trans h.clock,
    k.calls.trans h.calls, k.diskFailed.trans h.diskFailed⟩⟩

section Still

theorem getObject_still (ent : Nat) : Within Still (getObject ent) :=
  fun s => .ask (fun _ _ => Std.Refl.refl s) fun _ => Std.Refl.refl s

theorem setObject_still (ent : Nat) (o : FileObject) : Within Still (setObject ent o) :=
  .assign fun _ => ⟨rfl, rfl, rfl, rfl, rfl⟩

theorem pmmAllocFrame_still (e : Errno) : Within Still (pmmAllocFrame e) := by
  intro s
  unfold Post pmmAllocFrame
  cases s.alloc s.allocs with
  | true => exact ⟨rfl, rfl, rfl, rfl, rfl⟩
  | false => exact ⟨rfl, rfl, rfl, rfl, rfl⟩

theorem addPage_still (ent : Nat) : Within Still (addPage ent) :=
  (pmmAllocFrame_still _).bind fun _ => (getObject_still ent).bind fun _ => setObject_still ent _

theorem vfsFileEnsurePageTable_still (ent : Nat) : Within Still (vfsFileEnsurePageTable ent) :=
  (getObject_still ent).bind fun _ => .branch (fun _ => .ret ()) fun _ =>
    (pmmAllocFrame_still _).bind fun _ => setObject_still ent _

theorem addPages_still (ent n : Nat) :
    Within Still (steps (fun _ _ => addPage ent) n 0 () : H Unit) := by
  intro s
  exact .loop (fun _ _ s' => Still s s') n
    (fun _ _ s1 _ h => (addPage_still ent).onward h) n 0 () s (Nat.zero_add n) (Std.Refl.refl s)

theorem vfsFileEnsureCapacity_still (ent bytes : Nat) :
    Within Still (vfsFileEnsureCapacity ent bytes) := by
  refine (getObject_still ent).bind fun o => .guard _ fun _ => ?_
  exact .branch (fun _ => (vfsFileEnsurePageTable_still ent).bind fun _ => addPages_still ent _)
    fun _ => addPages_still ent _

theorem vfsFileLoadCache_still (ent : Nat) : Within Still (vfsFileLoadCache ent) := by
  refine (getObject_still ent).bind fun o => .branch (fun _ => .ret ()) fun _ =>
    .branch (fun _ => .ret ()) fun _ => .guard _ fun _ => ?_
  refine (vfsFileEnsureCapacity_still ent _).bind fun _ => .read fun s =>
    (getObject_still ent).bind fun o => ?_
  have drop : Within Still (do vfsFileCacheFree ent; throw .io : H Unit) :=
    .bind ((getObject_still ent).bind fun _ => setObject_still ent _) fun _ => .raise _
  cases ext2ReadPathToSink s.vol o.name with
  | none => exact drop
  | some bytes =>
    dsimp only
    cases vfsCopyToCache o.pages 0 bytes with
    | none => exact drop
    | some pages => exact .branch (fun _ => drop) fun _ => setObject_still ent _

theorem vfsFileRead_still (ent len : Nat) : Within Still (vfsFileRead ent len) := by
  refine (getObject_still ent).bind fun o => .guard _ fun _ =>
    .guard _ fun _ => .branch (fun _ => .ret _) fun _ =>
    .branch (fun _ => .ret _) fun _ => .branch (fun _ => ?_) fun _ => ?_
  · refine (vfsFileLoadCache_still ent).bind fun _ => (getObject_still ent).bind fun o => ?_
    dsimp only
    cases vfsCopyFromCache o o.offset (min len (o.size - o.offset)) with
    | none => exact .raise _
    | some bytes => exact (setObject_still ent _).bind fun _ => .ret _
  · refine .read fun s => ?_
    cases ext2ReadAtPath s.vol o.name o.offset len with
    | none => exact .raise _
    | some bytes => exact (setObject_still ent _).bind fun _ => .ret _

theorem writeCached_still (ent : Nat) (data : List UInt8) (stop : Nat) :
    Within Still (writeCached ent data stop) := by
  refine (vfsFileEnsureCapacity_still ent stop).bind fun _ => (getObject_still ent).bind fun o => ?_
  cases vfsCopyToCache o.pages o.offset data with
  | none => exact .raise _
  | some pages => exact (setObject_still ent _).bind fun _ => .ret _

theorem vfsFileSeek_still (ent : Nat) (offset : Int) (whence : Whence) :
    Within Still (vfsFileSeek ent offset whence) := by
  refine (getObject_still ent).bind fun o => ?_
  have land : ∀ base : Nat, Within Still (do
      if seekTarget base offset < 0 then throw .inval
      else
        setObject ent { o with offset := (seekTarget base offset).toNat }
        pure (seekTarget base offset) : H Int) := fun base =>
    .guard _ fun _ => (setObject_still ent _).bind fun _ => .ret _
  cases whence with
  | start => exact land 0
  | current => exact land o.offset
  | stop => exact land o.size
  | other => exact .raise _

end Still

/-- The frame has the page at `fileOffset` of the file `ino`, `bytes` of it before its end. -/
structure HoldsPage (v : Vol) (ino fileOffset : Nat) (frame : Buf) (bytes : Nat) : Prop where
  file : inodeIsFile (table v ino) = true
  inside : fileOffset < (contents v ino).length
  frame : ∀ i, i < 4096 → frame i = (contents v ino).getD (fileOffset + i) 0
  bytes : bytes = min ((contents v ino).length - fileOffset) 4096

/-- A file with the key of the entry has the page that is cached. -/
structure Coherent (v : Vol) (e : RoEntry) : Prop where
  file : inodeIsFile (table v e.ino) = true
  inside : e.fileOffset < e.size
  page : e.size = (table v e.ino).size → e.mtime = (table v e.ino).mtime →
    e.ctime = (table v e.ino).ctime →
    ∀ i, i < 4096 → e.frame i = (contents v e.ino).getD (e.fileOffset + i) 0

structure RoState (s : State) : Prop where
  ready : Ready s.vol
  consistent : Consistent s.vol
  initialised : s.vol.initialised = true
  coherent : ∀ e, some e ∈ s.roMap → Coherent s.vol e

/-- Of the files that a write to `path` may reach, no page is cached by another name with
the time of one of the next `n` calls of the driver. -/
def Fresh (s : State) (path : Path) (n : Nat) : Prop :=
  ∀ e, some e ∈ s.roMap → Targets s.vol path e.ino → e.name = path ∨ ∀ k, k < n →
    ¬(e.mtime = (s.clock (s.calls + k)).toNat ∧ e.ctime = (s.clock (s.calls + k)).toNat)

section

variable {v w : Vol} {e : RoEntry} {s s' : State} {path : Path} {n : Nat}

theorem Coherent.of_same (h : Coherent v e) (same : SameFile v w e.ino) : Coherent w e := by
  refine ⟨by rw [same.record]; exact h.file, h.inside, ?_⟩
  rw [same.record, contents_congr same h.file]
  exact h.page

theorem Coherent.of_stamped (h : Coherent v e) (file : inodeIsFile (table w e.ino) = true)
    (stamped : Stamped (table w e.ino) w) (other : ¬(e.mtime = w.now ∧ e.ctime = w.now)) :
    Coherent w e :=
  ⟨file, h.inside, fun _ hm hc => absurd ⟨hm.trans stamped.1, hc.trans stamped.2⟩ other⟩

theorem Coherent.of_emptied (h : Coherent v e) (file : inodeIsFile (table w e.ino) = true)
    (empty : (table w e.ino).size = 0) : Coherent w e := by
  refine ⟨file, h.inside, fun hsize => ?_⟩
  have := h.inside
  omega

theorem RoState.still (h : RoState s) (still : Still s s') : RoState s' := by
  refine ⟨?_, ?_, ?_, ?_⟩
  · rw [still.vol]; exact h.ready
  · rw [still.vol]; exact h.consistent
  · rw [still.vol]; exact h.initialised
  · rw [still.vol, still.roMap]; exact h.coherent

theorem Fresh.still (h : Fresh s path n) (still : Still s s') : Fresh s' path n := by
  unfold Fresh
  rw [still.vol, still.roMap, still.clock, still.calls]
  exact h

theorem mem_invalidated :
    some e ∈ roMap.map (Option.filter (·.name != path)) ↔ some e ∈ roMap ∧ e.name ≠ path := by
  simp only [mem_map, Option.filter_eq_some_iff, bne_iff_ne]
  constructor
  · rintro ⟨slot, hmem, rfl, hne⟩
    exact ⟨hmem, hne⟩
  · rintro ⟨hmem, hne⟩
    exact ⟨some e, hmem, rfl, hne⟩

theorem targets_congr {j : Nat} (h : Targets w path j) (hv : Ready v) (hw : Ready w)
    (hnames : names w = names v) (hinodes : inodeBits w = inodeBits v) : Targets v path j := by
  unfold Targets at h ⊢
  rw [regularFile_eq hw, namedFile_eq hw, hnames, usedInode, hinodes] at h
  rwa [regularFile_eq hv, namedFile_eq hv, usedInode]

theorem RoState.wrote (inv : RoState s) (fresh : Fresh s path (n + 1))
    (keeps : n = 0 ∨ ¬Creates s.vol path) (h : Wrote (s.vol.at (s.clock s.calls)) path w)
    (sub : ∀ e, some e ∈ roMap → some e ∈ s.roMap ∧ e.name ≠ path) :
    RoState { s with vol := w, calls := s.calls + 1, roMap := roMap } ∧
      Fresh { s with vol := w, calls := s.calls + 1, roMap := roMap } path n := by
  have hnow : w.now = (s.clock s.calls).toNat := h.env.now
  have hnames := names_at (s.clock s.calls) inv.ready inv.consistent
  have apart : ∀ e, some e ∈ roMap → Targets s.vol path e.ino → ∀ k, k < n + 1 →
      ¬(e.mtime = (s.clock (s.calls + k)).toNat ∧ e.ctime = (s.clock (s.calls + k)).toNat) :=
    fun e hmem htarget => (fresh e (sub e hmem).1 htarget).resolve_left (sub e hmem).2
  refine ⟨⟨h.ready, h.consistent, h.env.initialised.trans inv.initialised, fun e hmem => ?_⟩,
    fun e hmem htarget => .inr fun k hk => ?_⟩
  · have hold := inv.coherent e (sub e hmem).1
    obtain hsame | ⟨hfile, hstamp, htarget⟩ := h.files e.ino hold.file
    · exact hold.of_same ⟨hsame.record, hsame.contents⟩
    · refine hold.of_stamped hfile hstamp ?_
      rw [hnow]
      exact apart e hmem (targets_congr htarget inv.ready (inv.ready.at _) hnames rfl) 0 (Nat.succ_pos n)
  · obtain hnew | ⟨hsame, hinodes⟩ := h.names
    · have hold : ¬Creates s.vol path := keeps.resolve_left (by omega)
      exact absurd ((creates_at _ inv.ready inv.consistent).mp hnew) hold
    · have := apart e hmem
        (targets_congr htarget inv.ready h.ready (hsame.trans hnames) hinodes) (k + 1) (by omega)
      rwa [show s.calls + (k + 1) = s.calls + 1 + k by omega] at this

theorem RoState.declined (inv : RoState s) (h : Declined (s.vol.at (s.clock s.calls)) w)
    {calls : Nat} {starved diskFailed : Bool} : RoState { s with
      vol := w, calls := calls, starved := starved, diskFailed := diskFailed } := by
  refine ⟨h.ready, h.consistent, h.env.initialised.trans inv.initialised, fun e hmem => ?_⟩
  have hold := inv.coherent e hmem
  obtain hsame | ⟨hfile, hempty⟩ := h.files e.ino hold.file
  · exact hold.of_same ⟨hsame.record, hsame.contents⟩
  · exact hold.of_emptied hfile hempty

def Writes (path : Path) {α : Type} (x : Ext2.M α) : Prop :=
  ∀ v, Ready v → Consistent v →
    Post x v (fun _ w => Wrote v path w) (fun e w => e = .refused → Declined v w)

theorem onVol_writes {x : Ext2.M α} (hx : Writes path x) (inv : RoState s) : Post (onVol x) s
      (fun _ s' => ∃ w, s' = { s with vol := w, calls := s.calls + 1 } ∧
        Wrote (s.vol.at (s.clock s.calls)) path w)
      (fun _ s' => s'.diskFailed = false → RoState s') := by
  refine (onVol_post (hx _ (inv.ready.at _) (inv.consistent.at _))).mono (fun _ _ h => h) ?_
  rintro e _ ⟨-, fail, w, hrefused, rfl⟩ intact
  simp only [Bool.or_eq_false_iff, decide_eq_false_iff_not, not_not] at intact
  exact inv.declined (hrefused intact.2)

theorem write_invalidate {x : Ext2.M α} {f : α → H β} {Q : β → State → Prop}
    {E : Errno → State → Prop} (hx : Writes path x) (inv : RoState s)
    (fresh : Fresh s path (n + 1)) (keeps : n = 0 ∨ ¬Creates s.vol path)
    (ok : ∀ a s', RoState s' → Fresh s' path n → Post (f a) s' Q E)
    (err : ∀ e s', (s'.diskFailed = false → RoState s') → E e s') :
    Post (do let a ← onVol x; vfsRoMapInvalidatePath path; f a) s Q E := by
  refine .bind (onVol_writes hx inv) err ?_
  rintro a _ ⟨w, rfl, hw⟩
  refine .bind_assign ?_
  obtain ⟨hstate, hfresh⟩ := inv.wrote fresh keeps hw fun e hmem => mem_invalidated.mp hmem
  exact ok a _ hstate hfresh

end

def Covered (o : FileObject) : Prop := o.size ≤ o.pages.length * 4096

/-- However the call ends, the pages are coherent after it unless the disk has failed. -/
def Keeps {α : Type} (x : H α) (s : State) : Prop :=
  Post x s (fun _ s' => s'.diskFailed = false → RoState s')
    (fun _ s' => s'.diskFailed = false → RoState s')

section

variable {s : State} {ent : Nat} {o : FileObject} {path : Path} {n : Nat}

theorem Keeps.of_still {x : H α} (h : Within Still x) (inv : RoState s) : Keeps x s :=
  (h s).mono (fun _ _ still _ => inv.still still) fun _ _ still _ => inv.still still

theorem Keeps.answer {x : H α} {g : α → β} (h : Keeps x s) : Keeps (do let a ← x; pure (g a)) s :=
  .seq h fun _ _ hs => .ret hs

theorem Fresh.less {m : Nat} (h : Fresh s path n) (hm : m ≤ n) : Fresh s path m :=
  fun e hmem htarget => (h e hmem htarget).imp_right fun apart k hk => apart k (by omega)

theorem Covered.source (h : Covered o) :
    ext2WritePathFromSource o.name (vfsCopyFromCache o) o.size =
      ext2WritePath o.name (tabulate o.size (pageByte o.pages)) := by
  have hlen := length_tabulate o.size (pageByte o.pages)
  have reads : ∀ offset len, offset + len ≤ (tabulate o.size (pageByte o.pages)).length →
      vfsCopyFromCache o offset len =
        some (((tabulate o.size (pageByte o.pages)).drop offset).take len) := by
    intro offset len hin
    rw [hlen] at hin
    rw [vfsCopyFromCache_eq hin (hin.trans h)]
    refine congrArg some (eq_of_getD 0 ?_ fun q => ?_)
    · rw [length_tabulate, length_take, length_drop, hlen]
      omega
    · rw [getD_tabulate, getD_take, getD_drop, getD_tabulate]
      by_cases hq : q < len
      · rw [if_pos hq, if_pos hq, if_pos (by omega)]
      · rw [if_neg hq, if_neg hq]
  have heq : _ = ext2WritePath o.name _ := ext2WritePathFromSource_eq reads
  rwa [hlen] at heq

theorem flush_coherent (inv : RoState s) (hobj : s.objects ent = some o)
    (covered : o.dirty = true → Covered o) (fresh : Fresh s o.name (n + 1))
    (keeps : n = 0 ∨ ¬Creates s.vol o.name) :
    Post (vfsFileFlush ent) s (fun _ s' => RoState s' ∧ Fresh s' o.name n)
      (fun _ s' => s'.diskFailed = false → RoState s') := by
  have idle : RoState s ∧ Fresh s o.name n := ⟨inv, fresh.less (Nat.le_succ n)⟩
  refine .bind_get ?_
  rw [hobj]
  refine .branch (fun _ => .ret idle) fun _ => .branch (fun _ => .ret idle)
    fun hdirty => .guard (fun _ => inv) fun _ => ?_
  have dirty : o.dirty = true := by simpa using hdirty
  rw [(covered dirty).source]
  refine write_invalidate (fun v hv hc => ext2WritePath_stamps hv hc _ _) inv fresh keeps ?_
    fun _ _ h => h
  intro _ s1 hstate hfresh
  refine (setObject_still ent _ s1).mono (fun _ _ still => ?_) fun _ _ still _ => hstate.still still
  exact ⟨hstate.still still, hfresh.still still⟩

theorem flush_then {x : H α} (inv : RoState s) (hobj : s.objects ent = some o)
    (covered : o.dirty = true → Covered o ∧ ¬Creates s.vol o.name)
    (fresh : Fresh s o.name (if o.dirty then 2 else 1))
    (hx : ∀ s', RoState s' → Fresh s' o.name 1 → Keeps x s') :
    Keeps (if o.dirty then vfsFileFlush ent >>= fun _ => x else x) s := by
  refine .branch (fun dirty => ?_) fun clean => ?_
  · rw [if_pos dirty] at fresh
    refine .seq (flush_coherent inv hobj (fun dirty => (covered dirty).1) fresh
      (.inr (covered dirty).2)) fun _ s1 h => hx s1 h.1 h.2
  · rw [if_neg clean] at fresh
    exact hx s inv fresh

theorem writeThrough_keeps {stop : Nat} (inv : RoState s)
    (fresh : Fresh s o.name 1) : Keeps (writeThrough ent o data stop) s :=
  write_invalidate (fun _ hv hc => ext2WriteAtPath_stamps hv hc _ _ _ _ _) inv fresh (.inl rfl)
    (fun _ _ hstate _ => (Keeps.of_still (setObject_still ent _) hstate).answer) fun _ _ h => h

theorem resizeThrough_keeps (inv : RoState s) (fresh : Fresh s o.name 1) :
    Keeps (resizeThrough ent o size) s :=
  write_invalidate (fun _ hv hc => ext2ResizePath_stamps hv hc _ _) inv fresh (.inl rfl)
    (fun _ _ hstate _ => Keeps.of_still (setObject_still ent _) hstate) fun _ _ h => h

theorem Keeps.handle {f : FileObject → H α} (inv : RoState s)
    (h : ∀ o, s.objects ent = some o → Keeps (f o) s) : Keeps (getObject ent >>= f) s := by
  refine .bind_ask (fun _ _ => inv) fun o hobj => ?_
  exact h o hobj

section

variable (inv : RoState s)
  (h : ∀ o, s.objects ent = some o → (o.dirty = true → Covered o ∧ ¬Creates s.vol o.name) ∧ Fresh s o.name (if o.dirty then 2 else 1))
include inv h

theorem vfsFileWrite_keeps : Keeps (vfsFileWrite ent data) s := by
  refine Keeps.handle inv fun o hobj => ?_
  obtain ⟨covered, fresh⟩ := h o hobj
  refine .guard (fun _ => inv) fun _ => .branch
    (fun _ => .raise fun _ => inv) fun _ => .branch (fun _ => .ret fun _ => inv)
    fun _ => .guard (fun _ => inv) fun _ => .branch (fun _ => ?_)
    fun _ => ?_
  · refine Keeps.of_still (.branch (fun _ => ?_) fun _ => writeCached_still ent data _) inv
    exact (vfsFileLoadCache_still ent).bind fun _ => writeCached_still ent data _
  · exact flush_then inv hobj covered fresh fun s' inv' fresh' => writeThrough_keeps inv' fresh'

theorem vfsFileTruncateFd_keeps : Keeps (vfsFileTruncateFd ent size) s := by
  refine Keeps.handle inv fun o hobj => ?_
  obtain ⟨covered, fresh⟩ := h o hobj
  refine .guard (fun _ => inv) fun _ => .branch (fun _ => .raise fun _ => inv) fun _ => ?_
  exact flush_then inv hobj covered fresh fun s' inv' fresh' => resizeThrough_keeps inv' fresh'

end

section

variable (inv : RoState s)
  (h : ∀ o, s.objects ent = some o → (o.dirty = true → Covered o) ∧ Fresh s o.name 1)
include inv h

theorem vfsFileFlush_keeps : Keeps (vfsFileFlush ent) s := by
  cases hobj : s.objects ent with
  | none =>
    refine .bind_get ?_
    rw [hobj]
    exact .ret fun _ => inv
  | some o =>
    obtain ⟨covered, fresh⟩ := h o hobj
    exact (flush_coherent inv hobj covered fresh (.inl rfl)).weaken (fun _ _ h _ => h.1)

theorem vfsFileClose_keeps : Keeps (vfsFileClose ent) s := by
  have forget : ∀ s', (s'.diskFailed = false → RoState s') → Keeps (modify fun s =>
      { s with objects := Function.update s.objects ent none } : H Unit) s' := by
    intro s' h
    refine .assign fun intact => ?_
    exact (h intact).still ⟨rfl, rfl, rfl, rfl, rfl⟩
  have flush := vfsFileFlush_keeps inv h
  refine .bind_get ?_
  cases s.objects ent with
  | none => exact .ret fun _ => inv
  | some o =>
    refine .branch (fun _ => Keeps.of_still (setObject_still ent _) inv) fun _ =>
      .branch (fun _ => ?_) fun _ => forget s fun _ => inv
    refine .seq (.rescue flush fun _ s1 h1 => .ret h1) ?_
    exact fun _ s1 h1 => forget s1 h1

end

end

end SmallOS.Vfs
