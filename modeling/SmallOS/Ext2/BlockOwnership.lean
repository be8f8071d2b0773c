import SmallOS.Ext2.Removal
import SmallOS.Ext2.Sample
import SmallOS.Ext2.Writing

/-! Block ownership over whole runs of calls. -/

namespace SmallOS.Ext2

open Bytes Prog Ownership Option

inductive Call
  | write (path : Path) (data : List UInt8)
  | writeAt (path : Path) (offset : Nat) (data : List UInt8) (inoutSize : Nat) (create : Bool)
  | resize (path : Path) (size : Nat)
  | mkdir (path : Path)
  | rmdir (path : Path)
  | rm (path : Path)
  | link (oldpath newpath : Path)
  | symlink (target linkpath : Path)
  | mknod (path : Path) (mode : UInt16) (rdev : UInt32)
  | move (src dst : Path)

def Call.run : Call → M Unit
  | .write path data => ext2WritePath path data
  | .writeAt path offset data inoutSize create => do
    let _ ← ext2WriteAtPath path offset data inoutSize create
  | .resize path size => ext2ResizePath path size
  | .mkdir path => ext2Mkdir path
  | .rmdir path => ext2Rmdir path
  | .rm path => ext2Rm path
  | .link oldpath newpath => ext2Link oldpath newpath
  | .symlink target linkpath => ext2Symlink target linkpath
  | .mknod path mode rdev => ext2Mknod path mode.toNat rdev.toNat
  | .move src dst => ext2Move src dst

def Vol.at (v : Vol) (t : UInt32) : Vol := { v with now := t.toNat }

/-- A run of successful calls at any times, each of which meets `good` where it starts. -/
inductive Run (good : Vol → Call → Prop) : Vol → List Call → Vol → Prop
  | done (v : Vol) : Run good v [] v
  | call {v v₁ v₂ : Vol} {c : Call} {cs : List Call} (t : UInt32) (hgood : good (v.at t) c)
      (hrun : c.run (v.at t) = .ok () v₁) (rest : Run good v₁ cs v₂) : Run good v (c :: cs) v₂

/-- No device number is taken for a block number: `ext2_mknod` makes no regular file
with one, and `ext2_rm` does not free the record of a device that has one. -/
def Call.KeepsDevices (v : Vol) : Call → Prop
  | .mknod _ mode rdev => OwnsNothing mode.toNat rdev.toNat
  | .rm path => RmSafe v path
  | _ => True

section

variable {v v1 v2 : Vol}

theorem Unlinked.keeps {ino : Nat} {nd : Inode} (h : Unlinked v ino nd v1) :
    Ready v1 ∧ Consistent v1 := by
  obtain ⟨_, hr⟩ | ⟨_, w, hsaved, hd⟩ := h
  · exact ⟨hr.ready, hr.consistent⟩
  · exact ⟨hd.ready, hd.consistent hsaved.consistent⟩

theorem Call.run_keeps {c : Call} (hv : Ready v) (hc : Consistent v) (hkeeps : c.KeepsDevices v)
    (hrun : c.run v = .ok () v1) : Ready v1 ∧ Consistent v1 := by
  cases c with
  | write path data =>
    obtain ⟨_, _, _, _, _, _, hs, _⟩ := (ext2WritePath_post hv hc path data).of_ok hrun
    exact ⟨hs.ready, hs.consistent⟩
  | writeAt path offset data inoutSize create =>
    have hpost : Post (Call.run (.writeAt path offset data inoutSize create)) v
        (fun _ v' => Ready v' ∧ Consistent v') (fun _ _ => True) := by
      refine .bind (ext2WriteAtPath_post hv hc path offset data inoutSize create)
        (fun _ _ _ => trivial) ?_
      rintro size v' ⟨_, r, w, hopen, hfile, ⟨_, rfl, _⟩ | ⟨_, nd', hs, _⟩⟩
      · obtain ⟨hready, hcons, _⟩ := hopen.held hv hc hfile
        exact .ret ⟨hready, hcons⟩
      · exact .ret ⟨hs.ready, hs.consistent⟩
    exact hpost.of_ok hrun
  | resize path size =>
    obtain ⟨_, _, _, _, _, _, _, hs, _⟩ := (ext2ResizePath_post hv hc path size).of_ok hrun
    exact ⟨hs.ready, hs.consistent⟩
  | mkdir path =>
    obtain ⟨_, _, _, _, _, _, _, _, _, _, _, _, _, hr⟩ := (ext2Mkdir_post hv hc path).of_ok hrun
    exact ⟨hr.ready, hr.consistent⟩
  | rmdir path =>
    obtain ⟨_, _, _, _, _, _, _, _, _, _, _, _, hready, _, hcons, _⟩ :=
      (ext2Rmdir_post hv hc path).of_ok hrun
    exact ⟨hready, hcons⟩
  | rm path =>
    obtain ⟨_, _, _, _, _, _, _, _, _, hu⟩ := (ext2Rm_post hv hc path hkeeps).of_ok hrun
    exact hu.keeps
  | link oldpath newpath =>
    obtain ⟨_, _, _, _, _, _, _, _, _, _, hr⟩ :=
      (ext2Link_post hv hc oldpath newpath).of_ok hrun
    exact ⟨hr.ready, hr.consistent⟩
  | symlink target linkpath =>
    obtain ⟨_, _, _, _, _, _, _, _, _, _, _, _, hadd⟩ :=
      (ext2Symlink_post hv hc target linkpath).of_ok hrun
    exact ⟨hadd.saved.1.ready, hadd.saved.1.consistent⟩
  | mknod path mode rdev =>
    obtain ⟨_, _, _, _, _, _, hnamed⟩ := (ext2Mknod_post hv hc path mode.toNat_lt rdev.toNat_lt
      hkeeps).of_ok hrun
    exact ⟨hnamed.saved.1, hnamed.saved.2.1⟩
  | move src dst =>
    obtain ⟨_, _, _, _, _, _, _, _, _, _, _, hremoved⟩ := (ext2Move_post hv hc src dst).of_ok hrun
    exact ⟨hremoved.saved.ready, hremoved.saved.consistent⟩

theorem Ready.at (hv : Ready v) (t : UInt32) : Ready (v.at t) :=
  { hv with clock := t.toNat_lt }

theorem Consistent.at (hc : Consistent v) (t : UInt32) : Consistent (v.at t) :=
  show Holds (v.at t) (books v) from Holds.transfer hc (fun _ _ => rfl) fun _ => rfl

end

def emptySample : Sample where
  records := [(2, record dirMode 4096 2 [36])]
  data b := if b = 36 then (dirSkeleton 2 2).getD zeros else zeros
  blocks := ⟨fun i => if i < 4 then 255 else if i = 4 then 31 else 0⟩
  inodes := ⟨fun i => if i = 0 then 255 else if i = 1 then 3 else 0⟩

theorem emptySample_sound : emptySample.Sound :=
  have ⟨fits, empty⟩ := Sample.direct [(2, dirMode, 4096, 2, [36])] rfl (by decide)
  ⟨by decide, fits, by decide, by decide, empty, by decide⟩

def runAll : List Call → Vol → Option Vol
  | [], v => some v
  | c :: cs, v =>
    match c.run (v.at 0) with
    | .ok _ v₁ => runAll cs v₁
    | .error _ _ => none

theorem Run.of_runAll {good : Vol → Call → Prop} {cs : List Call} {v v' : Vol}
    (hgood : ∀ c, c ∈ cs → ∀ v, good v c) (h : runAll cs v = some v') : Run good v cs v' := by
  induction cs generalizing v with
  | nil =>
    obtain rfl := Option.some.inj h
    exact .done v
  | cons c cs ih =>
    unfold runAll at h
    cases hrun : c.run (v.at 0) with
    | error e v1 =>
      rw [hrun] at h
      cases h
    | ok u v1 =>
      rw [hrun] at h
      exact .call 0 (hgood c (List.mem_cons_self ..) _) hrun
        (ih (fun c hc => hgood c (List.mem_cons_of_mem _ hc)) h)

/-- Block ownership survives every run of successful calls in which no device number
is taken for a block number. -/
theorem consistent_of_run {v v₁ : Vol} {cs : List Call} (hv : Ready v) (hc : Consistent v)
    (hrun : Run Call.KeepsDevices v cs v₁) : Consistent v₁ := by
  induction hrun with
  | done v => exact hc
  | call t hkeeps hstep _ ih =>
    obtain ⟨hv', hc'⟩ := Call.run_keeps (hv.at t) (hc.at t) hkeeps hstep
    exact ih hv' hc'

theorem consistent_of_run_mknod : ∃ v', Run Call.KeepsDevices emptySample.volume
    [.mknod [47, 97] 0x2000 5] v' ∧ Consistent v' := by
  have hsome : (runAll [.mknod [47, 97] 0x2000 5] emptySample.volume).isSome = true := by decide
  obtain ⟨v', hv'⟩ := isSome_iff_exists.mp hsome
  have hkeeps : ∀ c, c ∈ [Call.mknod [47, 97] 0x2000 5] → ∀ v, c.KeepsDevices v := by
    intro c hc v
    obtain rfl := List.mem_singleton.mp hc
    exact .inl (by decide)
  have hrun := Run.of_runAll hkeeps hv'
  exact ⟨v', hrun, consistent_of_run emptySample_sound.ready emptySample_sound.consistent hrun⟩

/-- `mknod /a` as a block device with number 5 and `rm /a`: block 5 of the inode table
is marked free. -/
theorem device_number_freed : ¬∀ v cs v', Ready v → Consistent v →
    Run (fun _ _ => True) v cs v' → Consistent v' := by
  intro hall
  have hfreed : (runAll [.mknod [47, 97] 0x6000 5, .rm [47, 97]] emptySample.volume).map
      (usedBlock · 5) = some false := by decide +kernel
  obtain ⟨v', hv', hfree⟩ := map_eq_some_iff.mp hfreed
  have hcons := hall _ _ v' emptySample_sound.ready emptySample_sound.consistent
    (Run.of_runAll (fun _ _ _ => trivial) hv')
  rw [hcons.reserved 5 (by decide)] at hfree
  cases hfree

/-! Mounting again. The bitmaps are written back at the end of every deferral, and no call leaves
one open, so that between the calls the cached bitmaps are those on the device. -/

def ext2Init (v : Vol) : Vol :=
  { v with
    initialised := true, bitmapsLoaded := false, blockBitmapDirty := false
    inodeBitmapDirty := false, deferDepth := 0, nextAllocBlock := 36 }

section

variable {v v1 : Vol}

theorem Named.env {c : CreatePath} {ino type : Nat} {nd parent' : Inode}
    (h : Named v c ino nd type v1 parent') : SameEnv v v1 := by
  obtain ⟨_, hborn, hadd⟩ := h
  exact hborn.env.trans hadd.saved.1.env

theorem Opened.env {c : CreatePath} {r : Nat × Inode} (h : Opened v c r v1) : SameEnv v v1 := by
  obtain ⟨rfl, _⟩ | ⟨_, _, _, hnamed⟩ := h
  · exact .refl v1
  · exact hnamed.env

theorem Call.run_env {c : Call} (hv : Ready v) (hc : Consistent v) (hkeeps : c.KeepsDevices v)
    (hrun : c.run v = .ok () v1) : SameEnv v v1 := by
  cases c with
  | write path data =>
    obtain ⟨_, _, _, _, _, hopen, hs, _⟩ := (ext2WritePath_post hv hc path data).of_ok hrun
    exact hopen.env.trans hs.env
  | writeAt path offset data inoutSize create =>
    have hpost : Post (Call.run (.writeAt path offset data inoutSize create)) v
        (fun _ => SameEnv v) (fun _ _ => True) := by
      refine .bind (ext2WriteAtPath_post hv hc path offset data inoutSize create)
        (fun _ _ _ => trivial) ?_
      rintro size v' ⟨_, r, w, hopen, _, hdone⟩
      have henv : SameEnv v w := by
        obtain ⟨rfl, _⟩ | ⟨_, _, _, _, hopen⟩ := hopen
        · exact .refl w
        · exact hopen.env
      obtain ⟨_, rfl, _⟩ | ⟨_, _, hs, _⟩ := hdone
      · exact .ret henv
      · exact .ret (henv.trans hs.env)
    exact hpost.of_ok hrun
  | resize path size =>
    obtain ⟨_, _, _, _, _, _, _, hs, _⟩ := (ext2ResizePath_post hv hc path size).of_ok hrun
    exact hs.env
  | mkdir path =>
    obtain ⟨_, _, _, _, _, _, _, _, _, hborn, _, _, hadd, hr⟩ :=
      (ext2Mkdir_post hv hc path).of_ok hrun
    exact (hborn.env.trans hadd.saved.1.env).trans hr.env
  | rmdir path =>
    obtain ⟨_, _, _, _, _, _, _, _, _, _, _, _, _, henv, _⟩ := (ext2Rmdir_post hv hc path).of_ok hrun
    exact henv
  | rm path =>
    obtain ⟨_, _, _, _, _, _, _, _, hremoved, hu⟩ := (ext2Rm_post hv hc path hkeeps).of_ok hrun
    obtain ⟨_, hr⟩ | ⟨_, _, hs, hd⟩ := hu
    · exact hremoved.saved.env.trans hr.env
    · exact (hremoved.saved.env.trans hs.env).trans hd.env
  | link oldpath newpath =>
    obtain ⟨_, _, _, _, _, _, _, _, _, hadd, hr⟩ := (ext2Link_post hv hc oldpath newpath).of_ok hrun
    exact hadd.saved.1.env.trans hr.env
  | symlink target linkpath =>
    obtain ⟨_, _, _, _, _, _, _, hborn, _, _, _, _, hadd⟩ :=
      (ext2Symlink_post hv hc target linkpath).of_ok hrun
    exact hborn.env.trans hadd.saved.1.env
  | mknod path mode rdev =>
    obtain ⟨_, _, _, _, _, _, hnamed⟩ := (ext2Mknod_post hv hc path mode.toNat_lt rdev.toNat_lt
      hkeeps).of_ok hrun
    exact hnamed.env
  | move src dst =>
    obtain ⟨_, _, _, _, _, _, _, _, _, _, hadd, hremoved⟩ := (ext2Move_post hv hc src dst).of_ok hrun
    exact hadd.saved.1.env.trans hremoved.saved.env

theorem Ready.init (hv : Ready v) (hd : v.deferDepth = 0) :
    Ready (ext2Init v) ∧ SameBits v (ext2Init v) := by
  refine ⟨⟨hv.read, hv.write, by simp [ext2Init], by simp [ext2Init], fun _ => rfl, fun _ => rfl,
    by simp [ext2Init], by simp [ext2Init], hv.clock⟩, ?_, ?_⟩
  · show v.disk 2 = if v.bitmapsLoaded then v.blockBitmap else v.disk 2
    split_ifs with hl
    · exact hv.blockSync hl (hv.blockClean hd)
    · rfl
  · show v.disk 3 = if v.bitmapsLoaded then v.inodeBitmap else v.disk 3
    split_ifs with hl
    · exact hv.inodeSync hl (hv.inodeClean hd)
    · rfl

theorem Consistent.init (hc : Consistent v) (hbits : SameBits v (ext2Init v)) :
    Consistent (ext2Init v) :=
  show Holds (ext2Init v) (books v) from Holds.transfer hc (fun _ _ => rfl) fun _ => by
    simp only [usedBlock, hbits.blocks]

end

/-- Between the calls the device has everything: mounted again, the volume is in working order and
consistent, and the same blocks and inodes are in use. -/
theorem remount_after_run {v v₁ : Vol} {cs : List Call} (hv : Ready v) (hc : Consistent v)
    (hd : v.deferDepth = 0) (hrun : Run Call.KeepsDevices v cs v₁) :
    Ready (ext2Init v₁) ∧ Consistent (ext2Init v₁) ∧ SameBits v₁ (ext2Init v₁) := by
  induction hrun with
  | done v =>
    obtain ⟨hv', hbits⟩ := hv.init hd
    exact ⟨hv', hc.init hbits, hbits⟩
  | call t hkeeps hstep _ ih =>
    obtain ⟨hv', hc'⟩ := Call.run_keeps (hv.at t) (hc.at t) hkeeps hstep
    exact ih hv' hc' ((Call.run_env (hv.at t) (hc.at t) hkeeps hstep).deferDepth.trans hd)

theorem remount_after_mknod : ∃ v', Run Call.KeepsDevices emptySample.volume
    [.mknod [47, 98] 0x1000 0] v' ∧ Consistent (ext2Init v') := by
  have hsome : (runAll [.mknod [47, 98] 0x1000 0] emptySample.volume).isSome = true := by decide
  obtain ⟨v', hv'⟩ := isSome_iff_exists.mp hsome
  have hkeeps : ∀ c, c ∈ [Call.mknod [47, 98] 0x1000 0] → ∀ v, c.KeepsDevices v := by
    intro c hc v
    obtain rfl := List.mem_singleton.mp hc
    exact .inl (by decide)
  have hrun := Run.of_runAll hkeeps hv'
  exact ⟨v', hrun,
    (remount_after_run emptySample_sound.ready emptySample_sound.consistent rfl hrun).2.1⟩

end SmallOS.Ext2
