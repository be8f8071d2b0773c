import SmallOS.Ext2.DirOps
import SmallOS.Ext2.Path

/-! What the readers of the volume see. A file read, a directory lookup and a path
walk depend on an inode record and on the contents of its blocks only; `Names` is
what is left of the volume for the path walk, and `Names.resolve` is the walk. -/

namespace SmallOS.Ext2

open Bytes Prog Ownership List Option

variable {ff : Bool} {c : CreatePath} {cur fuel j len start : Nat} {r : Nat × Nat}
  {cursor dirPath path : Path}

structure SameFile (v v' : Vol) (j : Nat) : Prop where
  record : table v' j = table v j
  contents : inodeIsSpecial (table v j) = false →
    ∀ m, blockAt v'.disk (table v j) m = blockAt v.disk (table v j) m

section

variable {ino : Nat} {v v1 v2 : Vol} {nd nd1 : Inode}

theorem SameFile.refl (v : Vol) (j : Nat) : SameFile v v j := ⟨rfl, fun _ _ => rfl⟩

theorem SameFile.trans (h : SameFile v v1 j) (k : SameFile v1 v2 j) : SameFile v v2 j := by
  refine ⟨k.record.trans h.record, fun hs m => ?_⟩
  have hk := k.contents (by rw [h.record]; exact hs) m
  rw [h.record] at hk
  exact hk.trans (h.contents hs m)

theorem SameFile.of_others (h : Held v ino nd) (hj : j ≠ ino) (record : table v1 j = table v j)
    (others : ∀ c, DataLive v c → (∀ s, tree v.disk nd s ≠ c) → v1.disk c = v.disk c) :
    SameFile v v1 j := by
  refine ⟨record, fun hs m => ?_⟩
  have hbook : books v j = table v j := Inode.owned_of_not_special hs
  have htree := tree_other h hj others
  rw [← hbook]
  exact blockAt_congr (by rw [htree]) fun hne =>
    others _ (h.other_live hj hne) fun s => h.other_apart hj hne s

theorem Saved.sameFile (h : Saved ino v nd v1 nd1) (hheld : Held v ino nd)
    (hj : j ≠ ino) : SameFile v v1 j :=
  .of_others hheld hj (by rw [h.record, Function.update_of_ne hj])
    fun c hc hno => (h.others c hc hno).2

theorem blockAt_of_disk {d : Nat → Buf} (h : Held v ino nd) (disk : ∀ c, 36 ≤ c → d c = v.disk c)
    (m : Nat) : blockAt d nd m = blockAt v.disk nd m := by
  have htree : tree d nd = tree v.disk nd := tree_congr fun p hp => disk _ (h.ptr_ge hp)
  exact blockAt_congr (by rw [htree]) fun hne => disk _ (h.live hne).1

theorem SameFile.of_disk (hc : Consistent v) (record : table v1 j = table v j)
    (disk : ∀ c, 36 ≤ c → v1.disk c = v.disk c) : SameFile v v1 j :=
  ⟨record, fun hs => blockAt_of_disk (hc.held hs) disk⟩

theorem fileByte_eq_blockAt (d : Nat → Buf) (nd : Inode) (pos : Nat) :
    fileByte d nd pos = match blockAt d nd (pos / 4096) with
      | none => 0
      | some buf => buf (pos % 4096) := by
  simp only [fileByte, blockAt]
  split_ifs with h
  · rfl
  · rfl

theorem SameFile.fileByte (h : SameFile v v1 j)
    (hs : inodeIsSpecial (table v j) = false) (pos : Nat) :
    fileByte v1.disk (table v1 j) pos = fileByte v.disk (table v j) pos := by
  rw [fileByte_eq_blockAt, fileByte_eq_blockAt, h.record, h.contents hs]

def fileSlice (d : Nat → Buf) (nd : Inode) (pos len : Nat) : List UInt8 :=
  (List.range len).map fun i => Ext2.fileByte d nd (pos + i)

def shownAt (v : Vol) (nd : Inode) (logical : Nat) : Option Buf :=
  (inodeFindDataBlock v nd logical).bind fun b => if b = 0 then some zeros else readBlock v b

def shownByte (v : Vol) (nd : Inode) (pos : Nat) : Option UInt8 :=
  (shownAt v nd (pos / 4096)).map (· (pos % 4096))

theorem mapM_eq_some_iff {α β : Type} {f : α → Option β} {p : α → Bool} {g : α → β} {l : List α}
    {ys : List β} (h : ∀ x ∈ l, f x = if p x then none else some (g x)) :
    l.mapM f = some ys ↔ (∀ x ∈ l, p x = false) ∧ ys = l.map g := by
  induction l generalizing ys with
  | nil => exact ⟨fun h => ⟨nofun, (Option.some.inj h).symm⟩, fun h => congrArg some h.2.symm⟩
  | cons x l ih =>
    have ih ys := @ih ys fun y hy => h y (mem_cons_of_mem _ hy)
    rw [mapM_cons, h x mem_cons_self]
    cases hp : p x with
    | true => simp [hp]
    | false =>
      simp only [Bool.false_eq_true, if_false, bind_eq_bind, bind_some,
        bind_eq_some_iff, ih, Option.pure_def, some_inj, forall_mem_cons, hp,
        true_and, map_cons]
      constructor
      · rintro ⟨_, ⟨all, rfl⟩, rfl⟩
        exact ⟨all, rfl⟩
      · rintro ⟨all, rfl⟩
        exact ⟨_, ⟨all, rfl⟩, rfl⟩

theorem mapM_slice {f : Nat → Option UInt8} {o : Option Buf} {off n : Nat} (hn : 0 < n)
    (h : ∀ i < n, f i = o.map (· (off + i))) : (List.range n).mapM f = o.map (slice · off n) := by
  cases o with
  | none =>
    obtain ⟨n, rfl⟩ := Nat.exists_eq_succ_of_ne_zero hn.ne'
    rw [range_succ_eq_map, mapM_cons, h 0 hn]
    rfl
  | some buf =>
    exact (mapM_eq_some_iff (p := fun _ => false) fun i hi => h i (mem_range.mp hi)).mpr
      ⟨fun _ _ => rfl, rfl⟩

theorem readLoop_bytes {done : Nat} (hdone : done ≤ len) (hfuel : len ≤ done + fuel) :
    readLoop v nd start len fuel done =
      (List.range (len - done)).mapM fun i => shownByte v nd (start + done + i) := by
  induction fuel generalizing done with
  | zero =>
    rw [show len - done = 0 by omega]
    rfl
  | succ fuel ih =>
    unfold readLoop
    split_ifs with hlt
    · dsimp only
      generalize hchunk : min (4096 - (start + done) % 4096) (len - done) = chunk
      -- the bytes of this turn all come from one block
      have hturn : (range chunk).mapM (fun i => shownByte v nd (start + done + i)) =
          (shownAt v nd ((start + done) / 4096)).map (slice · ((start + done) % 4096) chunk) := by
        refine mapM_slice (by omega) fun i hi => ?_
        rw [shownByte, show (start + done + i) / 4096 = (start + done) / 4096 by omega,
          show (start + done + i) % 4096 = (start + done) % 4096 + i by omega]
      have hrest : (fun i => shownByte v nd (start + done + i)) ∘ (chunk + ·) =
          fun i => shownByte v nd (start + (done + chunk) + i) := by
        funext i
        simp only [Function.comp_apply, Nat.add_assoc]
      rw [show len - done = chunk + (len - (done + chunk)) by omega, range_add,
        mapM_append, hturn, mapM_map, hrest, ← ih (by omega) (by omega), shownAt]
      cases inodeFindDataBlock v nd ((start + done) / 4096) with
      | none => rfl
      | some b =>
        rw [bind_some]
        dsimp only
        cases (if b = 0 then some zeros else readBlock v b) with
        | none => rfl
        | some buf => cases readLoop v nd start len fuel (done + chunk) <;> rfl
    · rw [show len - done = 0 by omega]
      rfl

theorem fileReadToSink_bytes (hs : start ≤ nd.size) : fileReadToSink v nd start len =
      (List.range (min len (nd.size - start))).mapM fun i => shownByte v nd (start + i) := by
  rw [fileReadToSink, if_neg (by omega)]
  exact readLoop_bytes (Nat.zero_le _) (by omega)

theorem shownByte_eq (hv : Ready v) (h : Held v ino nd) {pos : Nat} (hpos : pos < 4294967296) :
    shownByte v nd pos = some (fileByte v.disk nd pos) := by
  rw [shownByte, shownAt, inodeFindDataBlock_eq hv h.lt (by unfold maxLogical; omega),
    bind_some, fileByte]
  split_ifs with h0
  · rfl
  · rw [readBlock_of_ready hv (h.lt _)]
    rfl

theorem fileReadToSink_eq (hv : Ready v) (h : Held v ino nd) (hs : start ≤ nd.size) :
    fileReadToSink v nd start len = some (fileSlice v.disk nd start (min len (nd.size - start))) := by
  have hsize := h.fits.size
  rw [fileReadToSink_bytes hs]
  refine (mapM_eq_some_iff (p := fun _ => false) fun i hi => ?_).mpr ⟨fun _ _ => rfl, rfl⟩
  have := mem_range.mp hi
  exact shownByte_eq hv h (by omega)

theorem SameFile.readSymlinkInode (h : SameFile v v1 j) (hv : Ready v) (hv1 : Ready v1)
    (hc : Consistent v) (hc1 : Consistent v1) (outSize : Nat) :
    readSymlinkInode v1 (table v1 j) outSize = readSymlinkInode v (table v j) outSize := by
  simp only [Ext2.readSymlinkInode]
  rw [h.record]
  split_ifs with hno
  · rfl
  · simp only [not_or, Bool.not_eq_true', Bool.not_eq_false] at hno
    have hs := inodeIsSpecial_of_isSymlink hno.1
    have h1 := hc1.held (by rw [h.record]; exact hs)
    rw [h.record] at h1
    rw [fileReadToSink_eq hv1 h1 (Nat.zero_le _), fileReadToSink_eq hv (hc.held hs) (Nat.zero_le _)]
    simp only [fileSlice, fileByte_eq_blockAt, h.contents hs]

theorem SameFile.dirFindEntry (h : SameFile v v1 j) (hv : Ready v) (hv1 : Ready v1)
    (hc : Consistent v) (hc1 : Consistent v1) (name : Name) :
    dirFindEntry v1 (table v1 j) name = dirFindEntry v (table v j) name := by
  rw [h.record]
  by_cases hdir : inodeIsDir (table v j) = true
  · have hs := inodeIsSpecial_of_isDir hdir
    have h1 := hc1.held (by rw [h.record]; exact hs)
    rw [h.record] at h1
    rw [dirFindEntry_eq hv1 h1.lt, dirFindEntry_eq hv (hc.held hs).lt, funext (h.contents hs)]
  · simp only [Ext2.dirFindEntry, hdir, Bool.false_eq_true, if_false]

end

structure Names where
  mode : Nat → Nat
  find : Nat → Name → Option (Nat × Nat)
  target : Nat → Option Path

def names (v : Vol) : Names where
  mode ino := (table v ino).mode
  find ino := dirFindEntry v (table v ino)
  target ino := (readSymlinkInode v (table v ino) 256).map cString

theorem names_congr (hv : Ready v) (hv1 : Ready v1) (hc : Consistent v) (hc1 : Consistent v1)
    (h : ∀ j, SameFile v v1 j) : names v1 = names v := by
  unfold names
  congr 1
  · exact funext fun j => by rw [(h j).record]
  · exact funext fun j => funext fun name => (h j).dirFindEntry hv hv1 hc hc1 name
  · exact funext fun j => by rw [(h j).readSymlinkInode hv hv1 hc hc1]

def Names.isDir (N : Names) (ino : Nat) : Bool := fileType (N.mode ino) == 0x4000

def Names.isFile (N : Names) (ino : Nat) : Bool := fileType (N.mode ino) == 0x8000

def Names.isSymlink (N : Names) (ino : Nat) : Bool := fileType (N.mode ino) == 0xA000

def Names.walk (N : Names) (followFinal : Bool) (redirect : Path → Option (Nat × Nat)) :
    (fuel : Nat) → (cursor dirPath : Path) → (cur : Nat) → Option (Nat × Nat)
  | 0, _, _, _ => none
  | fuel + 1, cursor, dirPath, cur =>
    match pathNextComponent cursor with
    | .bad => none
    | .done => some (0, cur)
    | .component name rest isLast =>
      if name = dotName then
        if isLast then some (0, cur) else N.walk followFinal redirect fuel rest dirPath cur
      else
        match N.find cur name with
        | none => none
        | some (next, _) =>
          if next = 0 ∨ 1024 < next then none
          else if N.isSymlink next ∧ (!isLast ∨ followFinal) then
            match N.target next with
            | none => none
            | some target =>
              match pathDirJoin dirPath target rest with
              | none => none
              | some redirected => redirect redirected
          else if isLast then some (cur, next)
          else if !N.isDir next then none
          else if name = dotDotName then
            N.walk followFinal redirect fuel rest (pathParentPop dirPath) next
          else
            match pathAppendPart dirPath name with
            | none => none
            | some dirPath => N.walk followFinal redirect fuel rest dirPath next

def Names.resolve (N : Names) (followFinal : Bool) : (levels : Nat) → Path → Option (Nat × Nat)
  | 0, _ => none
  | levels + 1, path =>
    if path = [] ∨ path = [47] then some (0, 2)
    else N.walk followFinal (N.resolve followFinal levels) (path.length + 1) path [] 2

def withRecord (v : Vol) (r : Nat × Nat) : Resolved := ⟨r.1, r.2, table v r.2⟩

section

variable {v : Vol}

theorem walk_eq (hv : Ready v) {redirect : Path → Option Resolved}
    {redirect' : Path → Option (Nat × Nat)}
    (hred : ∀ p, redirect p = (redirect' p).map (withRecord v)) :
    walk v ff redirect fuel cursor dirPath cur (table v cur) =
      ((names v).walk ff redirect' fuel cursor dirPath cur).map (withRecord v) := by
  induction fuel generalizing cursor dirPath cur with
  | zero => rfl
  | succ fuel ih =>
    unfold walk Names.walk
    cases pathNextComponent cursor with
    | bad => rfl
    | done => rfl
    | component name rest isLast =>
      simp only
      by_cases hdot : name = dotName
      · simp only [hdot, if_true]
        cases isLast with
        | true => rfl
        | false => simpa using ih
      · simp only [hdot, if_false]
        have hfind : (names v).find cur name = dirFindEntry v (table v cur) name := rfl
        rw [hfind]
        cases dirFindEntry v (table v cur) name with
        | none => rfl
        | some r =>
          obtain ⟨next, type⟩ := r
          simp only
          by_cases hi : next = 0 ∨ 1024 < next
          · simp only [readInode, hi, if_true, map_none]
          · have hino : ValidIno next := by unfold ValidIno; omega
            have hsym : (names v).isSymlink next = inodeIsSymlink (table v next) := rfl
            have hdir : (names v).isDir next = inodeIsDir (table v next) := rfl
            have htarget : (names v).target next =
              (readSymlinkInode v (table v next) 256).map cString := rfl
            simp only [readInode_of_ready hv hino, hi, if_false, hsym, hdir, htarget]
            split_ifs with h1 h2 h3 h4
            · cases readSymlinkInode v (table v next) 256 with
              | none => rfl
              | some target =>
                simp only [map_some]
                cases pathDirJoin dirPath (cString target) rest with
                | none => rfl
                | some redirected => exact hred redirected
            · rfl
            · rfl
            · exact ih
            · cases pathAppendPart dirPath name with
              | none => rfl
              | some dirPath => exact ih

theorem resolvePathEx_eq (hv : Ready v) (ff : Bool) (levels : Nat) (path : Path) :
    resolvePathEx v ff levels path = ((names v).resolve ff levels path).map (withRecord v) := by
  induction levels generalizing path with
  | zero => rfl
  | succ levels ih =>
    unfold resolvePathEx Names.resolve
    rw [readInode_of_ready hv (show ValidIno 2 by unfold ValidIno; omega)]
    simp only
    split_ifs with h
    · rfl
    · exact walk_eq hv ih

variable {N : Names}

theorem Names.walk_keeps {redirect : Path → Option (Nat × Nat)} {P : Nat → Prop}
    (hstep : ∀ i, ValidIno i → (ff = true → N.isSymlink i = false) → P i)
    (hred : ∀ p r, redirect p = some r → P r.2) (hcur : P cur)
    (h : N.walk ff redirect fuel cursor dirPath cur = some r) : P r.2 := by
  induction fuel generalizing cursor dirPath cur with
  | zero => cases h
  | succ fuel ih =>
    unfold Names.walk at h
    split at h
    · cases h
    · exact Option.some.inj h ▸ hcur
    · split at h
      · split_ifs at h
        · exact Option.some.inj h ▸ hcur
        · exact ih hcur h
      split at h
      · cases h
      rename_i next type hfind
      obtain ⟨hi, h⟩ := some_of_guard h
      have hvalid : ValidIno next := by unfold ValidIno; omega
      split_ifs at h with hlink
      · split at h
        · cases h
        split at h
        · cases h
        · exact hred _ _ h
      all_goals have hnext := hstep next hvalid fun follow => by simpa [follow] using hlink
      · exact Option.some.inj h ▸ hnext
      · exact ih hnext h
      · split at h
        · cases h
        · exact ih hnext h

theorem Names.resolve_keeps {levels : Nat} {P : Nat → Prop}
    (hstep : ∀ i, ValidIno i → (ff = true → N.isSymlink i = false) → P i) (hroot : P 2)
    (h : N.resolve ff levels path = some r) : P r.2 := by
  induction levels generalizing path r with
  | zero => cases h
  | succ levels ih =>
    unfold Names.resolve at h
    split_ifs at h
    · exact Option.some.inj h ▸ hroot
    · exact Names.walk_keeps hstep (fun _ _ hr => ih hr) hroot h

theorem resolvePath_eq_some (hv : Ready v) {r : Resolved} (h : resolvePath v path = some r) :
    ValidIno r.ino ∧ r.inode = table v r.ino ∧
      (names v).resolve true 9 path = some (r.parentIno, r.ino) := by
  unfold resolvePath at h
  rw [resolvePathEx_eq hv, map_eq_some_iff] at h
  obtain ⟨r', hr', rfl⟩ := h
  exact ⟨Names.resolve_keeps (fun _ valid _ => valid) (by unfold ValidIno; omega) hr', rfl, hr'⟩

structure CreateAt (v : Vol) (path : Path) (c : CreatePath) : Prop where
  valid : ValidIno c.parentIno
  parent : c.parent = table v c.parentIno
  dir : inodeIsDir c.parent = true
  leaf : c.leaf = createLeaf path
  nonempty : c.leaf ≠ []
  short : c.leaf.length ≤ 255
  notDot : c.leaf ≠ dotName
  notDotDot : c.leaf ≠ dotDotName
  resolves : ∃ p, (names v).resolve true 9 (createParent path) = some (p, c.parentIno)

theorem resolveCreatePath_eq_some (hv : Ready v)
    (h : resolveCreatePath v path = some c) : CreateAt v path c := by
  unfold resolveCreatePath at h
  simp only at h
  split_ifs at h with h1 h2
  simp only [not_or, not_le] at h1
  split at h
  · cases h
  rename_i r hr
  obtain ⟨hi, hnd, hres⟩ := resolvePath_eq_some hv hr
  split_ifs at h with hdir
  obtain rfl := Option.some.inj h
  exact ⟨hi, hnd, hdir, rfl, h1.1, Nat.le_of_lt_succ h1.2.1, h1.2.2.1, h1.2.2.2, r.parentIno, hres⟩

theorem CreateAt.held (h : CreateAt v path c) (hc : Consistent v) :
    Held v c.parentIno c.parent := by
  have hs := inodeIsSpecial_of_isDir h.dir
  rw [h.parent] at hs ⊢
  exact hc.held hs

end

end SmallOS.Ext2
