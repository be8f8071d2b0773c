import SmallOS.Ext2.Creation

/-! The calls that write file contents. -/

namespace SmallOS.Ext2
open Bytes Prog Ownership

variable {c : CreatePath} {r : Nat × Inode}

section

variable {v v1 : Vol}

theorem Named.saved {ino type : Nat} {nd parent' : Inode}
    (h : Named v c ino nd type v1 parent') : Ready v1 ∧ Consistent v1 ∧ ValidIno ino := by
  obtain ⟨w, hborn, hadd⟩ := h
  exact ⟨hadd.saved.1.ready, hadd.saved.1.consistent, hborn.valid⟩

theorem Opened.held (h : Opened v c r v1) (hv : Ready v)
    (hc : Consistent v) : Ready v1 ∧ Consistent v1 ∧ ValidIno r.1 ∧ inodeIsFile r.2 = true ∧
      Held v1 r.1 r.2 := by
  obtain ⟨rfl, hi, hrec, hfile, _⟩ | ⟨_, hnd, _, hnamed⟩ := h
  · refine ⟨hv, hc, hi, hfile, ?_⟩
    have hs := inodeIsSpecial_of_isFile hfile
    rw [hrec] at hs ⊢
    exact hc.held hs
  · obtain ⟨hready, hcons, hi⟩ := hnamed.saved
    have hfits := newInode_fits (show fileMode < 65536 by decide) (show 1 < 65536 by decide) hv.clock
    refine ⟨hready, hcons, hi, ?_, ?_⟩
    · rw [hnd]
      show (fileType fileMode == 0x8000) = true
      decide
    · rw [hnd]
      exact hcons.held_blank (newInode_blank _ _ _) hfits

/-! `ext2_write_path`. -/

def WritePathDone (v : Vol) (path : Path) (data : List UInt8) (v' : Vol) : Prop :=
  ∃ c r v₁ nd', CreateAt v path c ∧ Opened v c r v₁ ∧ Saved r.1 v₁ r.2 v' nd' ∧ SameKind r.2 nd' ∧
    nd'.size = data.length ∧ ∀ q, fileByte v'.disk nd' q = data.getD q 0

def WritePathFails (v : Vol) (path : Path) (len : Nat) (e : Fail) (v' : Vol) : Prop :=
  Refused v e v' ∨ ∃ c, CreateAt v path c ∧ (CreateFails v c e v' ∨
    ∃ r v₁, resolveCreatePath v path = some c ∧ createFileInParent c v = .ok r v₁ ∧
      Held v₁ r.1 r.2 ∧ PieceFails r.1 len v₁ r.2 e v')

theorem ext2WritePath_post (hv : Ready v) (hc : Consistent v) (path : Path) (data : List UInt8) :
    Post (ext2WritePath path data) v (fun _ => WritePathDone v path data)
      (WritePathFails v path data.length) := by
  refine Post.writable (.inl ⟨.inl rfl, rfl⟩) (Post.branch
    (fun _ => .raise (.inl ⟨.inl rfl, rfl⟩)) fun hlen => ?_)
  refine Post.bind_ask (fun _ => .inl ⟨.inl rfl, rfl⟩) fun c hfound => ?_
  have hat := resolveCreatePath_eq_some hv hfound
  refine .bind ((createFileInParent_post hv hc hat).and .of_result)
    (fun _ _ he => .inr ⟨c, hat, .inl he.1⟩) ?_
  rintro ⟨ino, nd⟩ v1 ⟨hopen, hrun⟩
  obtain ⟨hready, _, hi, _, hheld⟩ := hopen.held hv hc
  refine .bind (writeFileFromSource_post hready hheld hi (by omega))
    (fun _ _ he => .inr ⟨c, hat, .inr ⟨(ino, nd), v1, hfound, hrun, hheld, he⟩⟩) ?_
  rintro nd' v' ⟨hsaved, hkind, hsize, hbytes⟩
  exact .ret ⟨c, (ino, nd), v1, nd', hat, hopen, hsaved, hkind, hsize, hbytes⟩

/-! `ext2_write_at_path`. -/

def OpenedAt (v : Vol) (path : Path) (create : Bool) (r : Nat × Inode) (v₁ : Vol) : Prop :=
  (v₁ = v ∧ ∃ p, resolvePath v path = some ⟨p, r.1, r.2⟩) ∨
    (resolvePath v path = none ∧ create = true ∧ ∃ c, CreateAt v path c ∧ Opened v c r v₁)

def OpenFails (v : Vol) (path : Path) (e : Fail) (v' : Vol) : Prop :=
  Refused v e v' ∨ (resolvePath v path = none ∧ ∃ c, CreateAt v path c ∧ CreateFails v c e v')

theorem openForWrite_post (hv : Ready v) (hc : Consistent v) (path : Path) (create : Bool) :
    Post (openForWrite path create) v (OpenedAt v path create) (OpenFails v path) := by
  refine .bind_get ?_
  cases hres : resolvePath v path with
  | some r => exact .ret (.inl ⟨rfl, r.parentIno, hres⟩)
  | none =>
    refine .branch (fun hcreate => ?_) fun _ => .raise (.inl ⟨.inl rfl, rfl⟩)
    refine .bind_ask (fun _ => .inl ⟨.inl rfl, rfl⟩) fun c hfound => ?_
    have hat := resolveCreatePath_eq_some hv hfound
    exact (createFileInParent_post hv hc hat).mono (fun _ _ h => .inr ⟨hres, hcreate, c, hat, h⟩)
      fun _ _ he => .inr ⟨hres, c, hat, he⟩

theorem OpenedAt.held {path : Path} {create : Bool} (h : OpenedAt v path create r v1) (hv : Ready v)
    (hc : Consistent v) (hfile : inodeIsFile r.2 = true) :
    Ready v1 ∧ Consistent v1 ∧ ValidIno r.1 ∧ Held v1 r.1 r.2 := by
  obtain ⟨rfl, p, hres⟩ | ⟨_, _, c, _, hopen⟩ := h
  · obtain ⟨hi, hrec, _⟩ := resolvePath_eq_some hv hres
    simp only at hi hrec
    refine ⟨hv, hc, hi, ?_⟩
    have hs := inodeIsSpecial_of_isFile hfile
    rw [hrec] at hs ⊢
    exact hc.held hs
  · obtain ⟨hready, hcons, hi, _, hheld⟩ := hopen.held hv hc
    exact ⟨hready, hcons, hi, hheld⟩

def WriteAtDone (v : Vol) (path : Path) (offset : Nat) (data : List UInt8) (create : Bool)
    (size : Nat) (v' : Vol) : Prop :=
  offset + data.length ≤ maxWriteFileBytes ∧ ∃ r v₁, OpenedAt v path create r v₁ ∧
    inodeIsFile r.2 = true ∧ ((data = [] ∧ v' = v₁ ∧ size = r.2.size) ∨
      (data ≠ [] ∧ ∃ nd', Saved r.1 v₁ r.2 v' nd' ∧ SameKind r.2 nd' ∧ size = nd'.size ∧
        nd'.size = max r.2.size (offset + data.length) ∧
        ∀ q, fileByte v'.disk nd' q =
          if offset ≤ q ∧ q < offset + data.length then data.getD (q - offset) 0
          else fileByte v₁.disk r.2 q))

def WriteAtFails (v : Vol) (path : Path) (offset len : Nat) (create : Bool) (e : Fail) (v' : Vol) :
    Prop :=
  OpenFails v path e v' ∨ ∃ r v₁, OpenedAt v path create r v₁ ∧ inodeIsFile r.2 = true ∧
    RangeFails r.1 (offset / 4096) ((offset + len + 4095) / 4096) v₁ r.2 e v'

theorem ext2WriteAtPath_post (hv : Ready v) (hc : Consistent v) (path : Path) (offset : Nat)
    (data : List UInt8) (inoutSize : Nat) (create : Bool) :
    Post (ext2WriteAtPath path offset data inoutSize create) v
      (WriteAtDone v path offset data create) (WriteAtFails v path offset data.length create) := by
  refine Post.writable (.inl (.inl ⟨.inl rfl, rfl⟩)) (Post.branch
    (fun _ => .raise (.inl (.inl ⟨.inl rfl, rfl⟩))) fun hend => .branch
    (fun _ => .raise (.inl (.inl ⟨.inl rfl, rfl⟩))) fun hmax => ?_)
  have hmax : offset + data.length ≤ maxWriteFileBytes := by omega
  refine .bind (openForWrite_post hv hc path create) (fun _ _ he => .inl he) ?_
  rintro ⟨ino, nd⟩ v1 hopen
  refine .branch (fun hno => .raise ?_) fun hfile => ?_
  · -- a file that was just made is a regular one
    obtain ⟨rfl, p, hres⟩ | ⟨_, _, c, _, hmade⟩ := hopen
    · exact .inl (.inl ⟨.inl rfl, rfl⟩)
    · have := (hmade.held hv hc).2.2.2.1
      simp [this] at hno
  · have hfile : inodeIsFile nd = true := by simpa using hfile
    obtain ⟨hready, _, hi, hheld⟩ := hopen.held hv hc hfile
    refine .branch (fun hempty => .ret ⟨hmax, (ino, nd), v1, hopen, hfile, .inl ⟨?_, rfl, rfl⟩⟩)
      fun hdata => ?_
    · exact List.length_eq_zero_iff.mp hempty
    · refine .bind (writeFileRange_post hready hheld hi (by omega))
        (fun _ _ he => .inr ⟨(ino, nd), v1, hopen, hfile, he⟩) ?_
      rintro nd' v' ⟨hsaved, hkind, hsize, hbytes, _⟩
      exact Post.ret ⟨hmax, (ino, nd), v1, hopen, hfile, .inr ⟨fun h => hdata (by rw [h]; rfl), nd',
        hsaved, hkind, rfl, hsize, hbytes⟩⟩

/-! `ext2_resize_path`. -/

def ResizeDone (v : Vol) (path : Path) (size : Nat) (v' : Vol) : Prop :=
  size ≤ maxWriteFileBytes ∧ ∃ p ino nd', resolvePath v path = some ⟨p, ino, table v ino⟩ ∧
    ValidIno ino ∧ inodeIsFile (table v ino) = true ∧ Saved ino v (table v ino) v' nd' ∧
    SameKind (table v ino) nd' ∧ nd'.size = size ∧ Resized v (table v ino) size v' nd'

def ResizeFails (v : Vol) (path : Path) (size : Nat) (e : Fail) (v' : Vol) : Prop :=
  Refused v e v' ∨ ∃ p ino, resolvePath v path = some ⟨p, ino, table v ino⟩ ∧ ValidIno ino ∧
    inodeIsFile (table v ino) = true ∧
    RangeFails ino ((size - 1) / 4096) ((size + 4095) / 4096) v (table v ino) e v'

theorem ext2ResizePath_walk {path : Path} {size : Nat} {Q : Vol → Prop} {E : Fail → Vol → Prop}
    (hv : Ready v) (refused : E .refused v) (resize : ∀ p ino,
      resolvePath v path = some ⟨p, ino, table v ino⟩ → ValidIno ino →
      inodeIsFile (table v ino) = true → size ≤ maxWriteFileBytes →
      Post (resizeFile ino (table v ino) size) v (fun _ => Q) E) :
    Post (ext2ResizePath path size) v (fun _ => Q) E := by
  refine Post.writable refused (Post.bind_ask (fun _ => refused) ?_)
  rintro ⟨p, ino, nd⟩ hres
  obtain ⟨hi, hrec, _⟩ := resolvePath_eq_some hv hres
  simp only at hi hrec
  subst hrec
  refine .guard refused fun hfile => .seq ?_ fun _ _ h => .ret h
  by_cases hs : size ≤ maxWriteFileBytes
  · exact resize p ino hres hi (by simpa using hfile) hs
  · rw [resizeFile, if_pos (.inr (by omega))]
    exact .raise refused

theorem ext2ResizePath_post (hv : Ready v) (hc : Consistent v) (path : Path) (size : Nat) :
    Post (ext2ResizePath path size) v (fun _ => ResizeDone v path size)
      (ResizeFails v path size) := by
  refine ext2ResizePath_walk hv (.inl ⟨.inl rfl, rfl⟩) fun p ino hres hi hfile hs => ?_
  refine (resizeFile_post hv (hc.held (inodeIsSpecial_of_isFile hfile)) hi hfile hs).mono ?_
    fun _ _ he => .inr ⟨p, ino, hres, hi, hfile, he⟩
  rintro nd' v' ⟨hsaved, hkind, hsize, hresized⟩
  exact ⟨hs, p, ino, nd', hres, hi, hfile, hsaved, hkind, hsize, hresized⟩

end

end SmallOS.Ext2
