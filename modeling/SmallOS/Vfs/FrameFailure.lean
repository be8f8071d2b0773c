import SmallOS.Vfs.Array

/-! What a call that runs out of frames leaves behind. A cache with a page counts as loaded; so a
load that stops after its first page hides the file behind zero pages. -/

namespace SmallOS.Vfs

open Bytes Prog Ext2 Splice List Option Bool OpenFile

variable {k n : Nat}

/-- From `s` on, with frames for everything, the handle answers as the array `f` does, and a
flush stores what the array has become. -/
def Unharmed (ent : Nat) (path : Path) (ino : Nat) (s : State) (f : OpenFile) : Prop :=
  ∀ alloc calls s', Trace ent path ino { s with
      alloc := alloc
      starved := false
      diskFailed := false } calls s' →
    calls.map Prod.snd = (f.run (calls.map Prod.fst)).1 ∧
      ((∃ answer, calls.getLast? = some (.flush, answer)) →
        contents s'.vol ino = (f.run (calls.map Prod.fst)).2.bytes)

section

variable {ent : Nat} {path : Path} {ino : Nat} {s s' : State} {f : OpenFile} {o : FileObject}

theorem Stands.unharmed (stands : Stands ent path ino s f) : Unharmed ent path ino s f := by
  intro alloc calls s' trace
  have start : Stands ent path ino { s with
      alloc := alloc
      starved := false
      diskFailed := false } f := ⟨stands.mounted, stands.denotes, stands.closed, stands.opened⟩
  exact ⟨(trace.stands start).1, fun ⟨_, last⟩ => trace.stored start last⟩

theorem outcome_read_of_missing (hobj : s.objects ent = some o)
    (hreadable : o.readable = true) (hfile : o.isDir = false) (small : o.size ≤ fileCacheMaxBytes)
    (hpages : o.pages.length = k) (some : 0 < k) (hoffset : o.offset = k * 4096)
    (hin : o.offset < o.size) : outcome ((Op.read 1).run ent s) = (.error .io, s) := by
  have loaded : vfsFileLoadCache ent s = .ok () s :=
    vfsFileLoadCache_loaded hobj (.inl fun hnil => by rw [hnil] at hpages; simp_all)
  have hmin : min 1 (o.size - o.offset) = 1 := by omega
  have missing : vfsCopyFromCache o o.offset 1 = none := by
    have hindex : o.pages[(o.offset + 0) / 4096]? = none := by
      rw [List.getElem?_eq_none_iff, hpages, hoffset]
      omega
    rw [vfsCopyFromCache, if_neg (by omega), copyFromPages]
    simp only [Nat.zero_lt_one, if_true, hindex]
  simp only [Op.run, vfsFileRead, run_bind, getObject_run hobj, hreadable, hfile, Bool.not_true,
    false_eq_true, if_false, one_ne_zero, not_le.mpr hin, small, if_true, loaded, hmin, missing]
  rfl

theorem seekTarget_small (h : n ≤ fileCacheMaxBytes) : seekTarget 0 (n : Int) = (n : Int) := by
  unfold seekTarget fileCacheMaxBytes fdCachePages at *
  rw [show ((0 : Nat) : Int) + n = n from zero_add _]
  exact Int.bmod_eq_of_le (by omega) (by omega)

theorem outcome_seek (hobj : s.objects ent = some o) (h : n ≤ fileCacheMaxBytes) :
    outcome ((Op.seek n .start).run ent s) = (.ok (.position n),
      { s with objects := Function.update s.objects ent (some { o with offset := n }) }) := by
  have hpos : ¬(n : Int) < 0 := by omega
  simp only [Op.run, vfsFileSeek, bind, EStateM.bind, getObject_run hobj, pure, EStateM.pure,
    seekTarget_small h, hpos, if_false, Int.toNat_natCast]
  rfl

theorem OpenFile.step_of_apply {op : Op} {reply : Reply} {f' : OpenFile} (hopen : f.refs ≠ 0)
    (happly : f.apply op = .ok (reply, f')) : f.step op = (.ok reply, f') := by
  unfold step
  rw [if_neg hopen, happly]

theorem not_unharmed (hopen : f.refs ≠ 0) (hreadable : f.readable = true)
    (holds : Holds path (contents s.vol ino) o f) (stops : LoadStops s o k)
    (touched : Touched ent (o.grow k) s s') : ¬Unharmed ent path ino s' f := by
  intro unharmed
  have hearly := stops.stop.early
  have hsmall := stops.small
  have hk : k * 4096 < o.size := by
    unfold pagesFor at hearly
    omega
  have hpages : (o.grow k).pages.length = k := by
    rw [o.pages_grow, stops.empty, nil_append, length_replicate]
  -- seek to the end of the pages that are there and read a byte
  let t : State := { s' with starved := false, diskFailed := false }
  let t1 : State := { t with
    objects := Function.update t.objects ent (some { o.grow k with offset := k * 4096 }) }
  have seeks : outcome ((Op.seek (k * 4096 : Nat) .start).run ent t) =
      (.ok (.position (k * 4096 : Nat)), t1) :=
    outcome_seek (s := t) touched.object (by omega)
  have reads : outcome ((Op.read 1).run ent t1) = (.error .io, t1) :=
    outcome_read_of_missing (s := t1) (Function.update_self ..) (holds.readable.trans hreadable)
      holds.file hsmall hpages stops.some rfl hk
  have trace : Trace ent path ino t [(.seek (k * 4096 : Nat) .start, .ok (.position (k * 4096 : Nat))),
      (.read 1, .error .io)] t1 := .call seeks rfl (.call reads rfl (.done t1))
  have answers := (unharmed s'.alloc _ _ trace).1
  have first : f.step (.seek (k * 4096 : Nat) .start) =
      (.ok (.position (k * 4096 : Nat)), { f with offset := k * 4096 }) := by
    refine step_of_apply hopen ?_
    have hpos : ¬((k * 4096 : Nat) : Int) < 0 := by omega
    simp only [apply, base, seekTarget_small (n := k * 4096) (by omega), hpos,
      if_false, Int.toNat_natCast]
  have second := step_of_apply (f := { f with offset := k * 4096 }) hopen
    (apply_read (f := { f with offset := k * 4096 }) hreadable 1)
  simp only [map_cons, map_nil, run, first, second] at answers
  simp at answers

/-- A call that fails, though the disk does not, does the handle no harm just if it is not cut
short in a load; that it is shows in a handle that can be read. -/
theorem failed_call_unharmed (stands : Stands ent path ino s f) (hopen : f.refs ≠ 0) (op : Op)
    (e : Errno) (failed : outcome (op.run ent s) = (.error e, s')) (disk : s'.diskFailed = false) :
    (¬CutShort ent s op → Unharmed ent path ino s' f) ∧
      (f.readable = true → CutShort ent s op → ¬Unharmed ent path ino s' f) := by
  have spared : Spared ent path ino s f op s' := by
    have h := op_meets stands hopen op
    unfold Meets Post at h
    cases run : op.run ent s with
    | ok reply s₁ =>
      rw [run] at failed
      cases failed
    | error e₁ s₁ =>
      rw [run] at h failed
      obtain ⟨-, rfl⟩ := Prod.mk.inj failed
      exact h.2 disk
  obtain ⟨o, hobj, holds⟩ := stands.opened hopen
  rcases spared with ⟨whole, stands'⟩ | ⟨o', k, hobj', loads, stops, touched⟩
  · exact ⟨fun _ => stands'.unharmed, fun _ cut => absurd cut whole⟩
  · obtain rfl := some.inj (hobj.symm.trans hobj')
    exact ⟨fun whole => absurd ⟨o, k, hobj, loads, stops⟩ whole,
      fun hreadable _ => not_unharmed hopen hreadable holds stops touched⟩

end

def framelessState : State := { openState [47, 102] with alloc := fun _ => false }

def emptyFile : OpenFile := ⟨[], 0, true, true, 1⟩

theorem framelessState_stands : Stands 3 [47, 102] 11 framelessState emptyFile := by
  refine Landed.stands ⟨linkedFile_mounted, ⟨by decide, by decide⟩, rfl⟩ (by decide) rfl ?_
  exact ⟨rfl, rfl, rfl, rfl, rfl, rfl, rfl, fun _ => openState_empty [47, 102],
    (fun no => nomatch no), fun no => absurd rfl no⟩

theorem failed_call_unharmed_write :
    ∃ s', outcome ((Op.write [7]).run 3 framelessState) = (.error .io, s') ∧
      Unharmed 3 [47, 102] 11 s' emptyFile := by
  have hrun : (fun r => decide (r.1 = .error .io) && !r.2.diskFailed)
      (outcome ((Op.write [7]).run 3 framelessState)) = true := by decide
  cases run : outcome ((Op.write [7]).run 3 framelessState) with
  | mk answer s' =>
    rw [run, and_eq_true] at hrun
    obtain rfl : answer = .error .io := of_decide_eq_true hrun.1
    refine ⟨s', rfl, (failed_call_unharmed framelessState_stands (by decide) (.write [7]) .io run
      (by simpa using hrun.2)).1 ?_⟩
    rintro ⟨o, k, hobj, -, stops⟩
    obtain rfl := some.inj hobj
    exact absurd stops.stop.early (Nat.not_lt_zero k)

def longFile : Sample where
  records := [(2, record dirMode 4096 2 [36]), (11, record 0o100644 8192 1 [37])]
  data b :=
    if b = 36 then
      dirRecords 0 [(2, 12, dotName, 2), (2, 12, dotDotName, 2), (11, 4072, [102], 1)]
    else if b = 37 then ⟨fun _ => 7⟩
    else zeros
  blocks := ⟨fun i => if i < 4 then 255 else if i = 4 then 63 else 0⟩
  inodes := ⟨fun i => if i = 0 then 255 else if i = 1 then 7 else 0⟩

theorem longFile_sound : longFile.Sound :=
  have ⟨fits, empty⟩ := Sample.direct [(2, dirMode, 4096, 2, [36]), (11, 0o100644, 8192, 1, [37])] rfl
    (by decide)
  ⟨by decide, fits, by decide, by decide, empty, by decide⟩

theorem longFile_mounted : Mounted longFile.volume :=
  ⟨longFile_sound.ready, longFile_sound.consistent, by decide, by decide, rfl,
    longFile_sound.clean (by decide), fun _ _ => rfl⟩

def longState : State where
  vol := longFile.volume
  objects ent :=
    if ent = 3 then some ⟨1, true, true, false, false, [47, 102], 8192, 0, none⟩ else none
  roMap := List.replicate roMapCachePages none
  alloc i := i != 2
  allocs := 0
  clock _ := 0
  calls := 0
  starved := false
  diskFailed := false

def longArray : OpenFile := ⟨contents longFile.volume 11, 0, true, true, 1⟩

theorem longState_stands : Stands 3 [47, 102] 11 longState longArray := by
  refine Landed.stands ⟨longFile_mounted, ⟨by decide, by decide⟩, rfl⟩ (by decide) rfl ?_
  have saved : contents longState.vol 11 = longArray.bytes := by rw [longState, longArray]
  rw [saved]
  exact {
    refs := rfl
    readable := rfl
    writable := rfl
    file := rfl
    name := rfl
    size := by
      rw [longArray, contents, length_tabulate, longFile_sound.table]
      rfl
    offset := rfl
    saved := fun _ => rfl
    dirty := fun no => nomatch no
    cached := fun no => (no rfl).elim }

/-- The first read fails; the second returns a zero instead of the seven in the file. -/
theorem cut_short_reads_zero : Stands 3 [47, 102] 11 longState longArray ∧
    ∃ s' t, outcome ((Op.read 1).run 3 longState) = (.error .io, s') ∧ s'.diskFailed = false ∧
      outcome ((Op.read 1).run 3 { s' with starved := false }) = (.ok (.bytes [0]), t) ∧
      (longArray.step (.read 1)).1 = .ok (.bytes [7]) ∧
      ¬Unharmed 3 [47, 102] 11 s' longArray := by
  have hrun : (fun r => decide (r.1 = .error .io) && !r.2.diskFailed &&
      (fun t => decide (t.1 = .ok (.bytes [0])) && !t.2.starved)
        (outcome ((Op.read 1).run 3 { r.2 with starved := false })))
      (outcome ((Op.read 1).run 3 longState)) = true := by decide
  have harray : (longArray.step (.read 1)).1 = .ok (.bytes [7]) := by decide +kernel
  cases run : outcome ((Op.read 1).run 3 longState) with
  | mk answer s' =>
    cases again : outcome ((Op.read 1).run 3 { s' with starved := false }) with
    | mk answer' t =>
      rw [run] at hrun
      simp only [again, and_eq_true, decide_eq_true_eq, not_eq_true'] at hrun
      obtain ⟨⟨rfl, hdisk⟩, rfl, hfed⟩ := hrun
      refine ⟨longState_stands, s', t, rfl, hdisk, again, harray, fun unharmed => ?_⟩
      have same : { s' with alloc := s'.alloc, starved := false, diskFailed := false } =
          { s' with starved := false } := by rw [← hdisk]
      have trace : Trace 3 [47, 102] 11
          { s' with alloc := s'.alloc, starved := false, diskFailed := false }
          [(.read 1, .ok (.bytes [0]))] t := by
        rw [same]
        exact .call again hfed (.done t)
      have answers := (unharmed _ _ _ trace).1
      simp only [map_cons, map_nil, OpenFile.run, harray] at answers
      simp at answers

end SmallOS.Vfs
