import SmallOS.Ext2.DirMap

/-! Directory listings. `ext2_dirents_read` fills a batch from an index on and `ext2_dirent_at`
returns one entry. Reading the inode of an entry overwrites the block that is being walked, so it is
loaded again before the walk goes on. -/

namespace SmallOS.Ext2

open Bytes Prog Splice List Option Entry

variable {nd : Inode} {index logical n outNameSize : Nat}

structure DirentInfo where
  name : List UInt8
  size : Nat
  isDir : Bool
deriving DecidableEq

def direntNameToBuf (de : Dirent) (outSize : Nat) : Option (List UInt8) :=
  if outSize < de.nameLen + 1 then none else some (cString (tabulate de.nameLen de.raw))

def shownName (de : Dirent) : Option (List UInt8) :=
  if de.inode = 0 then none
  else match direntNameToBuf de 256 with
    | none => none
    | some tmp => if tmp = dotName ∨ tmp = dotDotName then none else some tmp

/-- How the walk over a block ends: with an error, with the batch filled, or at the end of
the block with `seen` entries behind it. -/
inductive BatchStep
  | failed
  | filled (out : List DirentInfo)
  | more (seen : Nat) (out : List DirentInfo)

def direntsInBlock (v : Vol) (block startIndex maxEntries : Nat) :
    (fuel off : Nat) → (scratch : Buf) → (seen : Nat) → (out : List DirentInfo) → BatchStep
  | 0, _, _, seen, out => .more seen out
  | fuel + 1, off, scratch, seen, out =>
    if off < 4096 then
      match parseDirent scratch off with
      | none => .failed
      | some de =>
        match shownName de with
        | none =>
          direntsInBlock v block startIndex maxEntries fuel (off + de.recLen) scratch seen out
        | some tmp =>
          if startIndex ≤ seen then
            match readInode v de.inode with
            | none => .failed
            | some child =>
              if 256 < tmp.length + 1 then .failed
              else if out.length + 1 = maxEntries then
                .filled (out ++ [⟨tmp, child.size, inodeIsDir child⟩])
              else match readBlock v block with
                | none => .failed
                | some again =>
                  direntsInBlock v block startIndex maxEntries fuel (off + de.recLen) again
                    (seen + 1) (out ++ [⟨tmp, child.size, inodeIsDir child⟩])
          else
            direntsInBlock v block startIndex maxEntries fuel (off + de.recLen) scratch (seen + 1) out
    else .more seen out

def direntsInBlocks (v : Vol) (nd : Inode) (startIndex maxEntries : Nat) :
    (n logical seen : Nat) → (out : List DirentInfo) → Option (List DirentInfo)
  | 0, _, _, out => some out
  | n + 1, logical, seen, out =>
    match inodeFindDataBlock v nd logical with
    | none => none
    | some block =>
      if block = 0 then direntsInBlocks v nd startIndex maxEntries n (logical + 1) seen out
      else match readBlock v block with
        | none => none
        | some scratch =>
          match direntsInBlock v block startIndex maxEntries 512 0 scratch seen out with
          | .failed => none
          | .filled out => some out
          | .more seen out => direntsInBlocks v nd startIndex maxEntries n (logical + 1) seen out

def ext2DirentsRead (v : Vol) (path : Path) (startIndex maxEntries : Nat) :
    Option (List DirentInfo) :=
  if !v.initialised then none
  else if maxEntries = 0 then some []
  else match resolvePath v path with
    | none => none
    | some r =>
      if !inodeIsDir r.inode then none
      else direntsInBlocks v r.inode startIndex maxEntries (inodeBlockCount r.inode) 0 0 []

/-- The walk of `ext2_dirent_at` over one block: an error, the entry, or the number of
entries behind it. -/
inductive EntryStep
  | failed
  | found (info : DirentInfo)
  | more (seen : Nat)

def direntAtInBlock (v : Vol) (index outNameSize : Nat) (buf : Buf) :
    (fuel off seen : Nat) → EntryStep
  | 0, _, seen => .more seen
  | fuel + 1, off, seen =>
    if off < 4096 then
      match parseDirent buf off with
      | none => .failed
      | some de =>
        match shownName de with
        | none => direntAtInBlock v index outNameSize buf fuel (off + de.recLen) seen
        | some tmp =>
          if seen = index then
            match readInode v de.inode with
            | none => .failed
            | some child =>
              if outNameSize < tmp.length + 1 then .failed
              else .found ⟨tmp, child.size, inodeIsDir child⟩
          else direntAtInBlock v index outNameSize buf fuel (off + de.recLen) (seen + 1)
    else .more seen

def direntAtInBlocks (v : Vol) (nd : Inode) (index outNameSize : Nat) :
    (n logical seen : Nat) → Option DirentInfo
  | 0, _, _ => none
  | n + 1, logical, seen =>
    match inodeFindDataBlock v nd logical with
    | none => none
    | some block =>
      if block = 0 then direntAtInBlocks v nd index outNameSize n (logical + 1) seen
      else match readBlock v block with
        | none => none
        | some buf =>
          match direntAtInBlock v index outNameSize buf 512 0 seen with
          | .failed => none
          | .found info => some info
          | .more seen => direntAtInBlocks v nd index outNameSize n (logical + 1) seen

def ext2DirentAt (v : Vol) (path : Path) (index outNameSize : Nat) : Option DirentInfo :=
  if !v.initialised ∨ outNameSize = 0 then none
  else match resolvePath v path with
    | none => none
    | some r =>
      if !inodeIsDir r.inode then none
      else direntAtInBlocks v r.inode index outNameSize (inodeBlockCount r.inode) 0 0

def Entry.Shown (e : Entry) : Prop := e.name ≠ dotName ∧ e.name ≠ dotDotName

instance (e : Entry) : Decidable e.Shown := inferInstanceAs (Decidable (_ ∧ _))

def shown (es : List Entry) : List Entry := es.filter (·.Shown)

def Entry.info (v : Vol) (e : Entry) : DirentInfo :=
  ⟨e.name, (table v e.ino).size, inodeIsDir (table v e.ino)⟩

def Listable (es : List Entry) : Prop := ∀ e ∈ es, ValidIno e.ino ∧ 0 ∉ e.name

section

variable {v : Vol} {buf : Buf} {off : Nat} {rs : List Record} {es : List Entry}

theorem shown_append (es es' : List Entry) : shown (es ++ es') = shown es ++ shown es' :=
  filter_append ..

theorem shown_singleton (e : Entry) : shown [e] = if e.Shown then [e] else [] := by
  by_cases h : e.Shown <;> simp [shown, h]

theorem Listable.append {es es' : List Entry} (h : Listable (es ++ es')) :
    Listable es ∧ Listable es' :=
  ⟨fun e he => h e (mem_append_left _ he), fun e he => h e (mem_append_right _ he)⟩

theorem cString_of_clean {bytes : List UInt8} (h : 0 ∉ bytes) : cString bytes = bytes := by
  refine takeWhile_eq_self_iff.mpr fun b hb => ?_
  rw [bne_iff_ne]
  rintro rfl
  exact h hb

theorem shownName_record {de : Dirent} (hlen : de.nameLen ≤ 255)
    (hlist : Listable (live [de.record])) : (shown (live [de.record]) = [] ∧ shownName de = none) ∨
      ∃ e : Entry, shown (live [de.record]) = [e] ∧ shownName de = some e.name ∧
        e.ino = de.inode ∧ e.name.length ≤ 255 ∧ ValidIno de.inode := by
  by_cases h0 : de.inode = 0
  · left
    rw [live_free h0, shownName, if_pos h0]
    exact ⟨rfl, rfl⟩
  · have hlive : live [de.record] = [⟨de.record.name, de.inode, de.fileType⟩] := live_record h0
    rw [hlive] at hlist ⊢
    obtain ⟨hino, hclean⟩ := hlist _ (mem_singleton.mpr rfl)
    have hname : direntNameToBuf de 256 = some de.record.name := by
      rw [direntNameToBuf, if_neg (by omega)]
      exact congrArg some (cString_of_clean hclean)
    have hshown : shownName de = if de.record.name = dotName ∨ de.record.name = dotDotName then none
        else some de.record.name := by
      rw [shownName, if_neg h0, hname]
    by_cases hdots : de.record.name = dotName ∨ de.record.name = dotDotName
    · left
      rw [hshown, if_pos hdots, shown_singleton, if_neg fun hs : Shown _ => hdots.elim hs.1 hs.2]
      exact ⟨rfl, rfl⟩
    · right
      refine ⟨⟨de.record.name, de.inode, de.fileType⟩, ?_, by rw [hshown, if_neg hdots], rfl, ?_,
        hino⟩
      · rw [shown_singleton, if_pos (show Shown _ from not_or.mp hdots)]
      · exact (length_tabulate ..).trans_le hlen

def batchFrom (v : Vol) (k : Nat) (es : List Entry) : List DirentInfo :=
  ((shown es).drop k).map (Entry.info v)

theorem batchFrom_append (k : Nat) (es es' : List Entry) :
    batchFrom v k (es ++ es') = batchFrom v k es ++ batchFrom v (k - (shown es).length) es' := by
  simp only [batchFrom, shown_append, drop_append, map_append]

variable {block start max fuel seen : Nat} {out : List DirentInfo}

theorem direntsInBlock_chain (hv : Ready v) (hblock : block < 8192) (hbuf : v.disk block = buf)
    (h : Chain buf off rs 4096) (hoff : off ≤ 4096) (hfuel : 4096 ≤ off + 8 * fuel)
    (hlist : Listable (live rs)) (hout : out.length < max) :
    direntsInBlock v block start max fuel off buf seen out =
      if max ≤ out.length + (batchFrom v (start - seen) (live rs)).length then
        .filled (out ++ (batchFrom v (start - seen) (live rs)).take (max - out.length))
      else .more (seen + (shown (live rs)).length) (out ++ batchFrom v (start - seen) (live rs)) := by
  generalize hstop : 4096 = stop at h
  induction h generalizing fuel seen out with
  | nil off =>
    subst hstop
    have hnil : batchFrom v (start - seen) (live []) = [] := by
      simp only [batchFrom, live, shown, filterMap_nil, filter_nil, drop_nil, map_nil]
    rw [hnil, if_neg (by simp only [length_nil]; omega), append_nil]
    cases fuel with
    | zero => rfl
    | succ fuel =>
      rw [direntsInBlock, if_neg (by omega)]
      rfl
  | @cons off stop r rs first rest ih =>
    obtain ⟨de, hp, rfl⟩ := recordAt_eq_some first
    obtain ⟨hlen, hend, hbyte⟩ := recordAt_bounds first
    have hname : de.nameLen ≤ 255 := by rwa [← length_tabulate de.nameLen de.raw]
    have hrec : de.record.recLen = de.recLen := rfl
    rw [hrec] at hlen hend
    rw [← singleton_append, live_append] at hlist ⊢
    obtain ⟨hfirst, hrest⟩ := hlist.append
    obtain ⟨fuel, rfl⟩ : ∃ f, fuel = f + 1 := ⟨fuel - 1, by omega⟩
    have hgo := fun seen out => @ih fuel seen out hend (by rw [hrec]; omega) hrest
    simp only [hrec] at hgo
    rw [batchFrom_append, shown_append, direntsInBlock, if_pos (by omega), hp]
    obtain ⟨hnone, hskip⟩ | ⟨e, hone, hshow, hino, hshort, hvalid⟩ := shownName_record hname hfirst
    · have hempty : batchFrom v (start - seen) (live [de.record]) = [] := by
        rw [batchFrom, hnone, drop_nil, map_nil]
      simp only [hskip, hnone, hempty, nil_append, length_nil, Nat.sub_zero]
      exact hgo seen out hout hstop
    · have hinfo : (⟨e.name, (table v de.inode).size, inodeIsDir (table v de.inode)⟩ : DirentInfo) =
          e.info v := by rw [info, hino]
      have hread : readBlock v block = some buf := by rw [readBlock_of_ready hv hblock, hbuf]
      simp only [hshow, readInode_of_ready hv hvalid, hinfo, hread, hone, length_singleton]
      by_cases hstart : start ≤ seen
      · have hhere : batchFrom v (start - seen) (live [de.record]) = [e.info v] := by
          rw [batchFrom, hone, Nat.sub_eq_zero_of_le hstart]
          rfl
        have hzero : start - seen - 1 = start - (seen + 1) := by omega
        rw [if_pos hstart, if_neg (by omega), hhere, hzero, singleton_append, length_cons]
        by_cases hfull : out.length + 1 = max
        · rw [if_pos hfull, if_pos (by omega), show max - out.length = 1 by omega]
          rfl
        · rw [if_neg hfull, hgo (seen + 1) (out ++ [e.info v])
            (by rw [length_append, length_singleton]; omega) hstop]
          simp only [length_append, length_singleton, append_assoc, singleton_append]
          split_ifs with h1 h2 h2
          · rw [show max - out.length = max - (out.length + 1) + 1 by omega, take_succ_cons]
          · omega
          · omega
          · rw [length_cons, Nat.add_assoc, Nat.add_comm 1]
      · have hhere : batchFrom v (start - seen) (live [de.record]) = [] := by
          rw [batchFrom, hone, drop_eq_nil_of_le (by simp only [length_singleton]; omega)]
          rfl
        have hminus : start - seen - 1 = start - (seen + 1) := by omega
        rw [if_neg hstart, hhere, hminus, nil_append, hgo (seen + 1) out hout hstop,
          length_append, length_singleton, Nat.add_assoc]

theorem direntsInBlocks_entries (hv : Ready v) (hlt : ∀ s, tree v.disk nd s < 8192)
    (hl : logical + n ≤ maxLogical) (hes : entriesOf (blockAt v.disk nd) n logical = some es)
    (hlist : Listable es) (hout : out.length < max) :
    direntsInBlocks v nd start max n logical seen out =
      some (out ++ (batchFrom v (start - seen) es).take (max - out.length)) := by
  induction n generalizing logical es seen out with
  | zero =>
    obtain rfl := Option.some.inj hes
    simp only [direntsInBlocks, batchFrom, shown, filter_nil, drop_nil, map_nil,
      take_nil, append_nil]
  | succ n ih =>
    rw [direntsInBlocks, inodeFindDataBlock_eq hv hlt (by omega)]
    simp only
    by_cases h0 : tree v.disk nd (dataSlot logical) = 0
    · have hnone : blockAt v.disk nd logical = none := if_pos h0
      simp only [entriesOf, hnone] at hes
      rw [if_pos h0]
      exact ih (by omega) hes hlist hout
    · rw [if_neg h0, readBlock_of_ready hv (hlt _)]
      simp only [entriesOf, blockAt_of_ne h0] at hes
      cases hrs : blockRecords (v.disk (tree v.disk nd (dataSlot logical))) with
      | none => rw [hrs] at hes; cases hes
      | some rs =>
        simp only [hrs] at hes
        obtain ⟨rest, hrest, rfl⟩ := map_eq_some_iff.mp hes
        obtain ⟨hfirst, hlast⟩ := hlist.append
        simp only [direntsInBlock_chain hv (hlt (dataSlot logical)) rfl (blockRecords_eq_some.mp hrs)
          (Nat.zero_le 4096) (show 4096 ≤ 0 + 8 * 512 by decide) hfirst hout]
        rw [batchFrom_append, take_append]
        split_ifs with hfull
        · rw [show max - out.length - (batchFrom v (start - seen) (live rs)).length = 0 by omega,
            take_zero, append_nil]
        · simp only
          rw [ih (by omega) hrest hlast (by rw [length_append]; omega), Nat.sub_sub max,
            length_append, append_assoc, Nat.sub_sub start,
            take_of_length_le (show (batchFrom v (start - seen) (live rs)).length ≤
              max - out.length by omega)]

def EntryStep.batch : EntryStep → BatchStep
  | .failed => .failed
  | .found info => .filled [info]
  | .more seen => .more seen []

theorem shownName_length {de : Dirent} {tmp : List UInt8} (h : shownName de = some tmp) :
    tmp.length ≤ 255 := by
  unfold shownName direntNameToBuf at h
  split_ifs at h with hfree hlong
  dsimp only at h
  split_ifs at h
  obtain rfl := Option.some.inj h
  have := (List.takeWhile_prefix (l := tabulate de.nameLen de.raw) (· != 0)).length_le
  rw [length_tabulate] at this
  exact this.trans (by omega)

theorem direntAtInBlock_batch (v : Vol) (block fuel off : Nat) (buf : Buf)
    (hsize : 256 ≤ outNameSize) (hseen : seen ≤ index) :
    direntsInBlock v block index 1 fuel off buf seen [] =
        (direntAtInBlock v index outNameSize buf fuel off seen).batch ∧
      ∀ n, direntAtInBlock v index outNameSize buf fuel off seen = .more n → n ≤ index := by
  have ends : ∀ n, EntryStep.more seen = .more n → n ≤ index := by
    rintro n ⟨⟩
    exact hseen
  induction fuel generalizing off seen with
  | zero => exact ⟨rfl, ends⟩
  | succ fuel ih =>
    rw [direntsInBlock, direntAtInBlock]
    by_cases hoff : off < 4096
    · rw [if_pos hoff, if_pos hoff]
      cases parseDirent buf off with
      | none => exact ⟨rfl, nofun⟩
      | some de =>
        cases hshow : shownName de with
        | none =>
          simp only [hshow]
          exact ih _ hseen ends
        | some tmp =>
          have hlen := shownName_length hshow
          simp only [hshow]
          by_cases hat : seen = index
          · rw [if_pos hat.ge, if_pos hat]
            cases readInode v de.inode with
            | none => exact ⟨rfl, nofun⟩
            | some child =>
              simp only [length_nil, Nat.zero_add, if_true]
              rw [if_neg (by omega), if_neg (by omega)]
              exact ⟨rfl, nofun⟩
          · rw [if_neg (by omega), if_neg hat]
            refine ih _ (by omega) ?_
            rintro n ⟨⟩
            omega
    · rw [if_neg hoff, if_neg hoff]
      exact ⟨rfl, ends⟩

theorem direntAtInBlocks_batch (hsize : 256 ≤ outNameSize) (hseen : seen ≤ index) :
    direntAtInBlocks v nd index outNameSize n logical seen =
      (direntsInBlocks v nd index 1 n logical seen []).bind List.head? := by
  induction n generalizing logical seen with
  | zero => rfl
  | succ n ih =>
    rw [direntAtInBlocks, direntsInBlocks]
    cases inodeFindDataBlock v nd logical with
    | none => rfl
    | some block =>
      dsimp only
      split_ifs with h0
      · exact ih hseen
      · cases readBlock v block with
        | none => rfl
        | some scratch =>
          obtain ⟨hbatch, hmore⟩ := direntAtInBlock_batch v block 512 0 scratch hsize hseen
          simp only [hbatch]
          cases hstep : direntAtInBlock v index outNameSize scratch 512 0 seen with
          | failed => rfl
          | found info => rfl
          | more seen' => exact ih (hmore seen' hstep)

end

/-- Batches of the sizes `m k`, `m (k + 1)`, ..., each from where the last one ended, up to
one that returns less than asked. -/
def listBatches (v : Vol) (path : Path) (m : Nat → Nat) :
    (fuel k startIndex : Nat) → Option (List DirentInfo)
  | 0, _, _ => none
  | fuel + 1, k, startIndex =>
    match ext2DirentsRead v path startIndex (m k) with
    | none => none
    | some out =>
      if out.length < m k then some out
      else (listBatches v path m fuel (k + 1) (startIndex + out.length)).map (out ++ ·)

section

variable {v : Vol} {path : Path} {r : Resolved} {es : List Entry}

section

variable (hs : DirSound v r.ino) (hpath : resolvePath v path = some r)
  (hinit : v.initialised = true) (hes : dirEntries v (table v r.ino) = some es)
  (hlist : Listable es)
include hs hpath hinit hes hlist

theorem ext2DirentsRead_listed (start : Nat) {max : Nat} (hmax : 0 < max) :
    ext2DirentsRead v path start max = some ((batchFrom v start es).take max) := by
  obtain ⟨_, hinode, _⟩ := resolvePath_eq_some hs.ready hpath
  have hcount := inodeBlockCount_lt (table v r.ino)
  rw [ext2DirentsRead, if_neg (by simp [hinit]), if_neg (by omega), hpath]
  simp only [hinode, hs.dir, Bool.not_true, Bool.false_eq_true, if_false]
  exact direntsInBlocks_entries hs.ready hs.held.lt (by omega) hes hlist hmax

theorem ext2DirentAt_listed (index : Nat) (hsize : 256 ≤ outNameSize) :
    ext2DirentAt v path index outNameSize = ((shown es)[index]?).map (Entry.info v) := by
  have hbatch : ext2DirentAt v path index outNameSize =
      (ext2DirentsRead v path index 1).bind head? := by
    rw [ext2DirentAt, ext2DirentsRead, if_neg (by simp [hinit]; omega), if_neg (by simp [hinit]),
      if_neg (by decide), hpath]
    dsimp only
    split_ifs
    · rfl
    · exact direntAtInBlocks_batch hsize (Nat.zero_le _)
  rw [hbatch, ext2DirentsRead_listed hs hpath hinit hes hlist index Nat.one_pos, bind_some,
    head?_take, if_neg Nat.one_ne_zero, batchFrom, head?_map, head?_drop]

theorem listBatches_listed {m : Nat → Nat} (hm : ∀ k, 1 ≤ m k) {fuel k start : Nat}
    (hstart : start ≤ (shown es).length) (hfuel : (shown es).length < start + fuel) :
    listBatches v path m fuel k start = some (batchFrom v start es) := by
  have hlen : ∀ start, (batchFrom v start es).length = (shown es).length - start := fun start => by
    rw [batchFrom, length_map, length_drop]
  induction fuel generalizing k start with
  | zero => omega
  | succ fuel ih =>
    have hk := hm k
    rw [listBatches, ext2DirentsRead_listed hs hpath hinit hes hlist start (by omega)]
    simp only [length_take, hlen]
    split_ifs with hshort
    · rw [take_of_length_le (by rw [hlen]; omega)]
    · rw [Nat.min_eq_left (by omega), ih (by omega) (by omega), map_some]
      refine congrArg some ?_
      rw [batchFrom, batchFrom, ← map_take, ← map_append, ← drop_drop, take_append_drop]

end

end

/-- Whatever the sizes of the batches, the listing has every live entry but the two dots,
once and in the order of the directory, and its entries are those that `ext2_dirent_at`
returns one by one. -/
theorem listing_complete {v : Vol} {path : Path} {r : Resolved} {es : List Entry}
    (hs : DirSound v r.ino) (hpath : resolvePath v path = some r) (hinit : v.initialised = true)
    (hes : dirEntries v (table v r.ino) = some es) (hlist : Listable es) :
    ((shown es).map Entry.name).Nodup ∧
      (∀ m : Nat → Nat, (∀ k, 1 ≤ m k) → ∀ fuel, (shown es).length < fuel →
        listBatches v path m fuel 0 0 = some ((shown es).map (Entry.info v))) ∧
      ∀ i outNameSize, 256 ≤ outNameSize →
        ext2DirentAt v path i outNameSize = ((shown es).map (Entry.info v))[i]? := by
  refine ⟨?_, fun m hm fuel hfuel => ?_, fun i outNameSize hsize => ?_⟩
  · obtain ⟨es', hes', hnodup⟩ := hs.tiled
    obtain rfl := Option.some.inj (hes'.symm.trans hes)
    exact hnodup.sublist (filter_sublist.map _)
  · exact listBatches_listed hs hpath hinit hes hlist hm (Nat.zero_le _) (by omega)
  · rw [ext2DirentAt_listed hs hpath hinit hes hlist i hsize, getElem?_map]

theorem listing_complete_one_file :
    listBatches oneFile.volume [47] (fun _ => 1) 2 0 0 = some [⟨[102], 0, false⟩] := by
  have htable : table oneFile.volume 2 = record dirMode 4096 2 [36] := oneFile_sound.table 2
  have hpath : resolvePath oneFile.volume [47] = some ⟨0, 2, table oneFile.volume 2⟩ := rfl
  have hes : dirEntries oneFile.volume (table oneFile.volume 2) =
      some [⟨dotName, 2, 2⟩, ⟨dotDotName, 2, 2⟩, ⟨[102], 11, 1⟩] := by
    rw [htable]
    decide
  have hs : DirSound oneFile.volume 2 := by
    refine ⟨oneFile_sound.ready, oneFile_sound.consistent, ⟨by decide, by decide⟩, ?_, ?_,
      _, hes, by decide⟩
    · rw [htable]
      decide
    · rw [htable]
      exact .inl (by decide)
  have hlist : Listable [⟨dotName, 2, 2⟩, ⟨dotDotName, 2, 2⟩, ⟨[102], 11, 1⟩] := by
    simp only [Listable, ValidIno]
    decide
  have hfile : table oneFile.volume 11 = record 0o100644 0 1 [] := oneFile_sound.table 11
  rw [(listing_complete hs hpath (by decide) hes hlist).2.1 _ (fun _ => le_refl 1) 2 (by decide)]
  have hshown : shown [⟨dotName, 2, 2⟩, ⟨dotDotName, 2, 2⟩, ⟨[102], 11, 1⟩] = [⟨[102], 11, 1⟩] := by
    decide
  rw [hshown, map_singleton, info, hfile]
  rfl

end SmallOS.Ext2
