import SmallOS.Vfs.Array

/-! Switching the machine off. The cache of a handle and the cached bitmaps are gone with it; the
next session finds what was flushed. -/

namespace SmallOS.Vfs

open Ext2

variable {path : Path} {ino ent : Nat} {data : List UInt8} {v : Vol} {s : State} {f : OpenFile}

/-- A handle with nothing cached. Its size is that of the file on the disk, as after an open. -/
def OpenFile.handle (f : OpenFile) (path : Path) (v : Vol) (ino : Nat) : FileObject :=
  ⟨f.refs, f.readable, f.writable, false, false, path, (table v ino).size, f.offset, none⟩

theorem Landed.init (landed : Landed path ino data v) (idle : v.deferDepth = 0) :
    Landed path ino data (ext2Init v) := by
  obtain ⟨ready, consistent, _, writable, _, clean, _⟩ := landed.mounted
  obtain ⟨ready', bits⟩ := ready.init idle
  have consistent' := consistent.init bits
  have same : names (ext2Init v) = names v :=
    names_congr ready ready' consistent consistent' fun _ =>
      SameFile.of_disk consistent rfl fun _ _ => rfl
  refine ⟨⟨ready', consistent', rfl, writable, rfl, clean, fun _ _ => rfl⟩, ?_, landed.contents⟩
  exact landed.denotes.congr ready ready' same

theorem Landed.opened (landed : Landed path ino f.bytes s.vol) (hopen : f.refs ≠ 0)
    (opened : s.objects ent = some (f.handle path s.vol ino)) : Stands ent path ino s f := by
  have size : (table s.vol ino).size = f.bytes.length := by
    rw [← landed.contents, Ext2.contents, Splice.length_tabulate]
  refine landed.stands hopen opened ⟨rfl, rfl, rfl, rfl, rfl, size, rfl, fun _ => rfl, ?_, ?_⟩
  · simp [OpenFile.handle]
  · simp [OpenFile.handle, FileObject.pages]

/-- A session with a handle `f` that ends with a flush or the last close, and after the machine was
switched off and on one with a handle `g`: it answers as the array that the first one left. -/
theorem flushed_bytes_survive {ent' : Nat} {g : OpenFile} {s' t t' : State}
    {calls calls' : List (Op × Except Errno Reply)} (landed : Landed path ino f.bytes s.vol)
    (hf : f.refs ≠ 0) (opened : s.objects ent = some (f.handle path s.vol ino))
    (trace : Trace ent path ino s calls s')
    (flushed : (∃ answer, calls.getLast? = some (.flush, answer)) ∨
      (f.run (calls.map Prod.fst)).2.refs = 0)
    (idle : s'.vol.deferDepth = 0) (boot : t.vol = ext2Init s'.vol)
    (left : g.bytes = (f.run (calls.map Prod.fst)).2.bytes) (hg : g.refs ≠ 0)
    (again : t.objects ent' = some (g.handle path t.vol ino))
    (trace' : Trace ent' path ino t calls' t') :
    calls'.map Prod.snd = (g.run (calls'.map Prod.fst)).1 := by
  have stands := landed.opened hf opened
  have stands' := (trace.stands stands).2
  have stored : contents s'.vol ino = g.bytes := by
    rw [left]
    obtain ⟨answer, last⟩ | closed := flushed
    · exact trace.stored stands last
    · exact (stands'.closed closed).2
  have next : Landed path ino g.bytes t.vol := by
    rw [boot, ← stored]
    exact stands'.landed.init idle
  exact (trace'.stands (next.opened hg again)).1

def State.reboot (s : State) (f : OpenFile) : State :=
  { openState [] with
    vol := ext2Init s.vol
    objects := fun ent => if ent = 3 then some (f.handle [47, 102] (ext2Init s.vol) 11) else none }

theorem flushed_bytes_survive_two_bytes : ∃ calls s' calls' t',
    (Trace 3 [47, 102] 11 (openState [47, 102]) calls s' ∧
      calls.map Prod.fst = [.write [7, 8], .close]) ∧
    Trace 3 [47, 102] 11 (s'.reboot ⟨[7, 8], 0, true, false, 1⟩) calls' t' ∧
      calls'.map Prod.snd = [.ok (.bytes [7, 8])] := by
  have both : (runOps 3 [.write [7, 8], .close] (openState [47, 102])).any (fun r =>
      decide (r.2.vol.deferDepth = 0) &&
        (runOps 3 [.read 9] (r.2.reboot ⟨[7, 8], 0, true, false, 1⟩)).isSome) = true := by
    decide +kernel
  obtain ⟨⟨calls, s'⟩, first, rest⟩ := (Option.any_eq_true _ _).mp both
  obtain ⟨idle, second⟩ := (Bool.and_eq_true _ _).mp rest
  obtain ⟨⟨calls', t'⟩, second⟩ := Option.isSome_iff_exists.mp second
  obtain ⟨ops, trace⟩ := runOps_trace first
  obtain ⟨ops', trace'⟩ := runOps_trace second
  have answers := flushed_bytes_survive (f := ⟨[], 0, true, true, 1⟩)
    ⟨linkedFile_mounted, ⟨by decide, by decide⟩, openState_empty [47, 102]⟩ (by decide) rfl
    (trace [47, 102] 11) (.inr (by rw [ops]; rfl)) (of_decide_eq_true idle) rfl
    (by rw [ops]; rfl) (by decide) rfl (trace' [47, 102] 11)
  rw [ops'] at answers
  exact ⟨calls, s', calls', t', ⟨trace _ _, ops⟩, trace' _ _, answers⟩

end SmallOS.Vfs
