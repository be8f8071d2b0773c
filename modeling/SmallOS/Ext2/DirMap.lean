import SmallOS.Ext2.Listing
import SmallOS.Ext2.OutOfSpace
import SmallOS.Ext2.FileRefinement

/-! A directory as a finite map from names to inode numbers. The map is kept by a log of
the calls that were made: an addition binds a name, a removal unbinds it, and a call that
fails changes nothing. -/

namespace SmallOS.Ext2

open Bytes Prog List Option

variable {b logical : Nat} {p : Ptr}

section

variable {v v' : Vol} {ino : Nat} {nd nd' : Inode}

theorem tree_of_sub {d d' : Nat → Buf} {s : Slot} (hsub : nd.Sub nd') (hne : tree d nd s ≠ 0) :
    tree d' nd s = tree d' nd' s := by
  cases s with
  | root k => exact (tree_sub hsub (.root k)).resolve_left hne
  | entry p i =>
    exact tree_entry_congr ((hsub p.root).resolve_left fun h0 => hne (tree_entry_zero h0 i)) i

theorem Unplaced.blockAt (h : Unplaced ino v nd v') (hheld : Held v ino nd) (m : Nat) :
    blockAt v'.disk nd m = blockAt v.disk nd m := by
  obtain ⟨nd', hg, hdata⟩ := h
  by_cases h0 : tree v.disk nd (dataSlot m) = 0
  · have hzero : tree v'.disk nd (dataSlot m) = 0 := by
      obtain hz | hsame := tree_sub (d := v'.disk) hg.sub (dataSlot m)
      · exact hz
      · rw [hsame, hdata, h0]
    rw [Ext2.blockAt, Ext2.blockAt, if_pos h0, if_pos hzero]
  · exact blockAt_congr ((tree_of_sub hg.sub h0).trans (hdata m)) fun hne => hg.content hheld hne

end

/-- Every block of the directory is a chain of records to its end, and no live name stands
twice. A directory without a block has none behind its size. -/
structure DirSound (v : Vol) (ino : Nat) : Prop where
  ready : Ready v
  consistent : Consistent v
  valid : ValidIno ino
  dir : inodeIsDir (table v ino) = true
  sized : 0 < inodeBlockCount (table v ino) ∨
    (table v ino).size = 0 ∧ blockAt v.disk (table v ino) 0 = none
  tiled : ∃ es, dirEntries v (table v ino) = some es ∧ (es.map Entry.name).Nodup

inductive DirCall
  | add (name : Name) (child type : Nat)
  | remove (name : Name)

def DirCall.name : DirCall → Name
  | .add name _ _ => name
  | .remove name => name

/-- The directory is loaded anew for each call. `ext2_move` loads both directories first, so a
move within one directory is not such a run. -/
def DirCall.run (ino : Nat) : DirCall → M Unit
  | .add name child type => do
    let dir ← query (readInode · ino) Fail.device
    let _ ← dirAddEntry ino dir name child type
  | .remove name => do
    let dir ← query (readInode · ino) Fail.device
    dirRemoveEntry ino dir name

/-- A name of 1 to 255 bytes and an inode number with a type byte. -/
structure DirCall.Proper (c : DirCall) : Prop where
  nonempty : c.name ≠ []
  short : c.name.length ≤ 255
  child : ∀ name child type, c = .add name child type →
    child ≠ 0 ∧ child < 4294967296 ∧ type < 256

def DirCall.effect (c : DirCall) (name : Name) (bound : Option Nat) : Option Nat :=
  match c with
  | .add n child _ => if n = name then some child else bound
  | .remove n => if n = name then none else bound

/-- What a name is bound to after the calls of a log; the flag says which ones succeeded. -/
def boundBy (name : Name) (start : Option Nat) (log : List (DirCall × Bool)) : Option Nat :=
  log.foldl (fun bound c => if c.2 then c.1.effect name bound else bound) start

def inodeOf (v : Vol) (ino : Nat) (name : Name) : Option Nat :=
  (dirFindEntry v (table v ino) name).map Prod.fst

/-- Why a call fails: the name is there, the twelve direct blocks have no room for a record
of its length, or no block is free; for a removal the name is not there. -/
def DirCall.Cause (ino : Nat) (v v' : Vol) : DirCall → Prop
  | .add name _ _ => (inodeOf v ino name).isSome = true ∨
      (∀ k, k < 12 → FullBlock v (table v ino) (dirRecLen name.length) k) ∨ Full v'
  | .remove name => inodeOf v ino name = none

section

variable {es front back : List Entry} {e : Entry} {name : Name}

theorem findIn_insert (hnew : findIn (front ++ back) e.name = none) (name : Name) :
    findIn (front ++ e :: back) name =
      if e.name = name then some e.found else findIn (front ++ back) name := by
  rw [findIn_append, or_eq_none_iff] at hnew
  rw [findIn_append, findIn_cons, findIn_append]
  by_cases h : e.name = name
  · subst h
    rw [if_pos rfl, if_pos rfl, hnew.1]
    rfl
  · rw [if_neg h, if_neg h]

theorem findIn_delete (hnodup : ((front ++ e :: back).map Entry.name).Nodup) (name : Name) :
    findIn (front ++ back) name =
      if e.name = name then none else findIn (front ++ e :: back) name := by
  rw [map_append, map_cons, nodup_middle, nodup_cons, ← map_append] at hnodup
  have hgone : findIn (front ++ back) e.name = none := by
    refine findIn_eq_none.mpr fun x hx hname => hnodup.1 ?_
    rw [← hname]
    exact List.mem_map_of_mem hx
  by_cases h : e.name = name
  · rw [if_pos h, ← h, hgone]
  · rw [if_neg h, findIn_insert hgone, if_neg h]

end

section

variable {v v' : Vol} {ino child type : Nat} {nd nd' : Inode} {name : Name} {es : List Entry}

theorem DirSound.held (h : DirSound v ino) : Held v ino (table v ino) :=
  h.consistent.held (inodeIsSpecial_of_isDir h.dir)

theorem inodeOf_listed (hv : Ready v) (hc : Consistent v) (hdir : inodeIsDir (table v ino) = true)
    (hes : dirEntries v (table v ino) = some es) (hname : name.length ≤ 255) :
    inodeOf v ino name = (findIn es name).map Prod.fst := by
  rw [inodeOf, dirFindEntry_listed hv (hc.held (inodeIsSpecial_of_isDir hdir)) hdir hname hes]

theorem EntryAdded.count_pos (h : EntryAdded ino v nd v' nd' name child type)
    (hcount : 0 < inodeBlockCount nd) : 0 < inodeBlockCount nd' := by
  obtain ⟨m, hm, slot, _, _, _, _, hsize, _⟩ | ⟨_, _, _, _, hsize, _⟩ := h
  · rw [dirBlocks, if_neg (by omega)] at hm
    rw [inodeBlockCount_congr hsize, growTo_count hm]
    exact hcount
  · unfold inodeBlockCount
    omega

theorem Chain.not_broken {buf : Buf} {rs : List Record} (h : Chain buf 0 rs 4096) (need : Nat) :
    dirSlotInBlock need buf ≠ some .broken := by
  intro hslot
  obtain ⟨pre, o, hpre, _, ⟨_, hres⟩ | ⟨ho, hp, _⟩ | ⟨de, _, _, hvisit, _⟩⟩ :=
    scanDirents_ends (Q := fun _ => True) (Nat.zero_le 4096) (by decide) (fun _ _ _ => trivial) hslot
  · cases hres
  · obtain ⟨tail, _, htail⟩ := hpre.cut h ho.le
    obtain ⟨r, _, _, hrec, _⟩ := htail.head ho
    cases (recordAt_eq_none.mpr hp).symm.trans hrec
  · split_ifs at hvisit with h1 h2
    · cases Option.some.inj hvisit
    · cases Option.some.inj hvisit

theorem EntryAdded.listed_first (h : EntryAdded ino v nd v' nd' name child type)
    (hsize : nd.size = 0) (hnone : blockAt v.disk nd 0 = none) (hne : child ≠ 0)
    (hchild : child < 4294967296) (htype : type < 256) :
    dirEntries v nd = some [] ∧ dirEntries v' nd' = some [⟨name, child, type⟩] ∧
      0 < inodeBlockCount nd' := by
  have hcount : inodeBlockCount nd = 0 := by rw [inodeBlockCount, hsize]
  have hblocks : dirBlocks nd = 1 := by rw [dirBlocks, if_pos hcount]
  refine ⟨by rw [dirEntries, hcount]; rfl, ?_⟩
  obtain ⟨m, hm, slot, placed, hslot, hplace, hadd, hsize', _⟩ | ⟨_, _, _, _, _, hfull⟩ := h
  · obtain rfl : m = 0 := by omega
    rw [hnone, getD_none, dirSlotInBlock_zeros] at hslot
    obtain rfl := Option.some.inj hslot
    rw [hnone, getD_none] at hplace
    obtain ⟨rs', hchain, hlive⟩ := dirPlace_zeros hplace hchild hne htype
    have hcount' : inodeBlockCount nd' = 1 := by
      have hnew : nd'.size = 4096 := by rw [hsize', growTo, if_pos (by omega)]
      rw [inodeBlockCount, hnew]
    rw [dirEntries, hcount', entriesOf_one hadd.here hchain, hlive]
    exact ⟨rfl, Nat.one_pos⟩
  · obtain ⟨buf, hb, _⟩ := hfull 0 (by omega)
    cases hnone.symm.trans hb

section

variable (hs : DirSound v ino)
include hs

theorem DirSound.entry_added (h : EntryAdded ino v (table v ino) v' nd' name child type)
    (hne : child ≠ 0) (hchild : child < 4294967296) (htype : type < 256) :
    0 < inodeBlockCount nd' ∧ ∃ front back, dirEntries v (table v ino) = some (front ++ back) ∧
      ((front ++ back).map Entry.name).Nodup ∧
      dirEntries v' nd' = some (front ++ ⟨name, child, type⟩ :: back) := by
  obtain ⟨es, hes, hnodup⟩ := hs.tiled
  obtain hpos | ⟨hsize, hnone⟩ := hs.sized
  · obtain ⟨front, back, rfl, hes'⟩ := h.listed hpos hne hchild htype hes
    exact ⟨h.count_pos hpos, front, back, hes, hnodup, hes'⟩
  · obtain ⟨hempty, hes', hpos⟩ := h.listed_first hsize hnone hne hchild htype
    exact ⟨hpos, [], [], hempty, nodup_nil, hes'⟩

theorem DirSound.chains (m : Nat) (buf : Buf)
    (hm : m < dirBlocks (table v ino)) (hb : blockAt v.disk (table v ino) m = some buf) :
    ∃ rs, Chain buf 0 rs 4096 := by
  obtain ⟨es, hes, _⟩ := hs.tiled
  obtain hpos | ⟨hsize, hnone⟩ := hs.sized
  · rw [dirBlocks, if_neg (by omega)] at hm
    obtain ⟨_, _, _, _, _, hmid, _⟩ := entriesOf_split hm hes
    obtain ⟨rs, hchain, _⟩ := entriesOf_one_some hb hmid
    exact ⟨rs, hchain⟩
  · have hcount : inodeBlockCount (table v ino) = 0 := by rw [inodeBlockCount, hsize]
    rw [dirBlocks, if_pos hcount] at hm
    obtain rfl : m = 0 := by omega
    cases hnone.symm.trans hb

theorem DirSound.unplaced (h : Unplaced ino v (table v ino) v') :
    DirSound v' ino ∧ ∀ n, n.length ≤ 255 → inodeOf v' ino n = inodeOf v ino n := by
  have hblocks := h.blockAt hs.held
  obtain ⟨nd', hg, _⟩ := h
  have htable : table v' ino = table v ino := by rw [hg.table]
  have hbooks : books v ino = table v ino :=
    Inode.owned_of_not_special (inodeIsSpecial_of_isDir hs.dir)
  have hc' : Consistent v' := hg.toFill.consistent (by rw [hbooks]; exact Inode.Sub.refl _)
  obtain ⟨es, hes, hnodup⟩ := hs.tiled
  have hes' : dirEntries v' (table v' ino) = some es := by
    rw [← hes, dirEntries, dirEntries, htable]
    exact entriesOf_congr fun m _ _ => hblocks m
  have hdir' : inodeIsDir (table v' ino) = true := by rw [htable, hs.dir]
  refine ⟨⟨hg.ready, hc', hs.valid, hdir', ?_, es, hes', hnodup⟩, fun n hn => ?_⟩
  · rw [htable, hblocks]
    exact hs.sized
  · rw [inodeOf_listed hg.ready hc' hdir' hes' hn,
      inodeOf_listed hs.ready hs.consistent hs.dir hes hn]

theorem DirSound.add_step (hnonempty : name ≠ []) (hshort : name.length ≤ 255)
    (hne : child ≠ 0) (hchild : child < 4294967296) (htype : type < 256) :
    Post (dirAddEntry ino (table v ino) name child type) v
      (fun _ v' => DirSound v' ino ∧ ∀ n, n.length ≤ 255 →
        inodeOf v' ino n = (DirCall.add name child type).effect n (inodeOf v ino n))
      (fun _ v' => DirSound v' ino ∧ (∀ n, n.length ≤ 255 → inodeOf v' ino n = inodeOf v ino n) ∧
        (DirCall.add name child type).Cause ino v v') := by
  have hheld := hs.held
  refine (dirAddEntry_stops hshort hs.ready hheld hs.valid).mono ?_ ?_
  · rintro nd' v' ⟨_, _, hnew, hadd⟩
    obtain ⟨hpos, front, back, hes, hnodup, hes'⟩ := hs.entry_added hadd hne hchild htype
    obtain ⟨hsaved, hkind, _⟩ := hadd.saved
    have hdir' : inodeIsDir (table v' ino) = true := by
      rw [hsaved.table_self, ← hs.dir]
      simp only [inodeIsDir, hkind.mode]
    rw [← hsaved.table_self] at hpos hes'
    rw [dirFindEntry_listed hs.ready hheld hs.dir hshort hes] at hnew
    refine ⟨⟨hsaved.ready, hsaved.consistent, hs.valid, hdir', .inl hpos, _, hes', ?_⟩, ?_⟩
    · rw [map_append, map_cons, nodup_middle, nodup_cons, ← map_append]
      refine ⟨fun hmem => ?_, hnodup⟩
      obtain ⟨x, hx, hname⟩ := List.mem_map.mp hmem
      exact findIn_eq_none.mp hnew x hx hname
    · intro n hn
      rw [inodeOf_listed hsaved.ready hsaved.consistent hdir' hes' hn,
        inodeOf_listed hs.ready hs.consistent hs.dir hes hn, findIn_insert hnew]
      simp only [DirCall.effect]
      split_ifs
      · rfl
      · rfl
  · rintro e v' ⟨_, ⟨rfl, rfl⟩ | ⟨rfl, rfl, h12, hfull⟩ | ⟨rfl, hfull, hplaced⟩, hbroken⟩
    · refine ⟨hs, fun _ _ => rfl, .inl ?_⟩
      -- a directory that parses refuses no other name
      cases hfind : dirFindEntry v' (table v' ino) name with
      | some r => rw [inodeOf, hfind]; rfl
      | none =>
        obtain hpre | ⟨m, buf, hm, hb, hslot⟩ := hbroken rfl
        · exact absurd ⟨hs.dir, hnonempty, hfind⟩ hpre
        · obtain ⟨rs, hchain⟩ := hs.chains m buf hm hb
          exact absurd hslot (hchain.not_broken _)
    · exact ⟨hs, fun _ _ => rfl, .inr (.inl fun k hk => hfull k (by omega))⟩
    · obtain ⟨hsound, hsame⟩ := hs.unplaced hplaced
      exact ⟨hsound, hsame, .inr (.inr hfull)⟩

theorem DirSound.remove_step (hshort : name.length ≤ 255) :
    Post (dirRemoveEntry ino (table v ino) name) v
      (fun _ v' => DirSound v' ino ∧ ∀ n, n.length ≤ 255 →
        inodeOf v' ino n = (DirCall.remove name).effect n (inodeOf v ino n))
      (fun _ v' => DirSound v' ino ∧ (∀ n, n.length ≤ 255 → inodeOf v' ino n = inodeOf v ino n) ∧
        (DirCall.remove name).Cause ino v v') := by
  have hheld := hs.held
  refine Post.mono (dirRemoveEntry_post hs.ready hheld hs.valid) ?_ ?_
  · rintro _ v' ⟨_, hremoved⟩
    obtain ⟨es, hes, hnodup⟩ := hs.tiled
    obtain ⟨front, e, back, rfl, rfl, _, hes'⟩ := hremoved.listed hshort hes
    have hsaved := hremoved.saved
    have htable := hsaved.table_self
    rw [← htable] at hes'
    have hdir' : inodeIsDir (table v' ino) = true := by rw [htable, hs.dir]
    have hsub : ((front ++ back).map Entry.name).Nodup := by
      rw [map_append, map_cons, nodup_middle, nodup_cons] at hnodup
      rw [map_append]
      exact hnodup.2
    refine ⟨⟨hsaved.ready, hsaved.consistent, hs.valid, hdir', ?_, _, hes', hsub⟩, fun n hn => ?_⟩
    · obtain hpos | ⟨hsize, _⟩ := hs.sized
      · rw [htable]
        exact .inl hpos
      · -- a directory without a block has no entry to remove
        rw [dirEntries, inodeBlockCount, hsize] at hes
        cases (append_eq_nil_iff.mp (some.inj hes).symm).2
    · rw [inodeOf_listed hsaved.ready hsaved.consistent hdir' hes' hn,
        inodeOf_listed hs.ready hs.consistent hs.dir hes hn, findIn_delete hnodup]
      simp only [DirCall.effect]
      split_ifs
      · rfl
      · rfl
  · rintro e v' ⟨rfl, rfl, hnone⟩
    refine ⟨hs, fun _ _ => rfl, ?_⟩
    rw [dirLocate_eq hs.ready hheld.lt, if_pos hs.dir, map_eq_none_iff] at hnone
    rw [DirCall.Cause, inodeOf, dirFindEntry_eq hs.ready hheld.lt, if_pos hs.dir, hnone]
    rfl

theorem DirSound.step {c : DirCall} (hc : c.Proper) : Post (c.run ino) v
      (fun _ v' => DirSound v' ino ∧ ∀ n, n.length ≤ 255 → inodeOf v' ino n = c.effect n (inodeOf v ino n))
      (fun _ v' => DirSound v' ino ∧ (∀ n, n.length ≤ 255 → inodeOf v' ino n = inodeOf v ino n) ∧
        c.Cause ino v v') := by
  cases c with
  | add name child type =>
    obtain ⟨hne, hchild, htype⟩ := hc.child name child type rfl
    refine .bind_run (query_run (readInode_of_ready hs.ready hs.valid)) ?_
    exact .seq (hs.add_step hc.nonempty hc.short hne hchild htype)
      fun _ _ h => .ret h
  | remove name =>
    exact .bind_run (query_run (readInode_of_ready hs.ready hs.valid)) (hs.remove_step hc.short)

end

end

inductive DirRun (ino : Nat) (start : Vol) : List (DirCall × Bool) → Vol → Prop
  | start : DirRun ino start [] start
  | done {log : List (DirCall × Bool)} {v v' : Vol} {c : DirCall} (before : DirRun ino start log v)
      (proper : c.Proper) (run : c.run ino v = .ok () v') : DirRun ino start (log ++ [(c, true)]) v'
  | failed {log : List (DirCall × Bool)} {v v' : Vol} {c : DirCall} {e : Fail}
      (before : DirRun ino start log v) (proper : c.Proper) (run : c.run ino v = .error e v') :
      DirRun ino start (log ++ [(c, false)]) v'

theorem boundBy_append (name : Name) (start : Option Nat) (log : List (DirCall × Bool))
    (c : DirCall × Bool) : boundBy name start (log ++ [c]) =
      if c.2 then c.1.effect name (boundBy name start log) else boundBy name start log := by
  simp only [boundBy, foldl_append, foldl_cons, foldl_nil]

theorem DirRun.sound {ino : Nat} {v0 v : Vol} {log : List (DirCall × Bool)}
    (hrun : DirRun ino v0 log v) (h0 : DirSound v0 ino) : DirSound v ino ∧
      ∀ name, name.length ≤ 255 → inodeOf v ino name = boundBy name (inodeOf v0 ino name) log := by
  induction hrun with
  | start => exact ⟨h0, fun _ _ => rfl⟩
  | done _ proper run ih =>
    obtain ⟨hsound, heffect⟩ := (ih.1.step proper).of_ok run
    refine ⟨hsound, fun name hname => ?_⟩
    rw [heffect name hname, ih.2 name hname, boundBy_append]
    rfl
  | failed _ proper run ih =>
    obtain ⟨hsound, hsame, _⟩ := (ih.1.step proper).of_error run
    refine ⟨hsound, fun name hname => ?_⟩
    rw [hsame name hname, ih.2 name hname, boundBy_append]
    rfl

/-- In every state that calls lead to, the directory is sound, a lookup returns the inode
that was added last for the name and not removed since, and a call fails for one of its
causes only. -/
theorem directory_is_finite_map {ino : Nat} {v₀ v : Vol} {log : List (DirCall × Bool)}
    (h₀ : DirSound v₀ ino) (hrun : DirRun ino v₀ log v) : DirSound v ino ∧
      (∀ name, name.length ≤ 255 → (dirFindEntry v (table v ino) name).map Prod.fst =
        boundBy name ((dirFindEntry v₀ (table v₀ ino) name).map Prod.fst) log) ∧
      ∀ c e v', DirCall.Proper c → c.run ino v = .error e v' → c.Cause ino v v' := by
  obtain ⟨hsound, hbound⟩ := hrun.sound h₀
  exact ⟨hsound, hbound, fun c e v' hc hfail => ((hsound.step hc).of_error hfail).2.2⟩

theorem Sample.Sound.dirSound {S : Sample} (h : S.Sound) {ino : Nat} (hi : ValidIno ino)
    {nd : Inode} (hnd : (S.records.lookup ino).getD Inode.zero = nd) (hdir : inodeIsDir nd = true)
    (hsized : 0 < inodeBlockCount nd) {es : List Entry} (hes : dirEntries S.volume nd = some es)
    (hnodup : (es.map Entry.name).Nodup) : DirSound S.volume ino := by
  have htable : Ext2.table S.volume ino = nd := (h.table ino).trans hnd
  refine ⟨h.ready, h.consistent, hi, ?_, ?_, ?_⟩
  · rwa [htable]
  · rw [htable]
    exact .inl hsized
  · rw [htable]
    exact ⟨es, hes, hnodup⟩

theorem emptySample_root_sound : DirSound emptySample.volume 2 :=
  emptySample_sound.dirSound ⟨by decide, by decide⟩ rfl (by decide) (by decide)
    (show _ = some [⟨dotName, 2, 2⟩, ⟨dotDotName, 2, 2⟩] by decide) (by decide)

theorem oneFile_root_sound : DirSound oneFile.volume 2 :=
  oneFile_sound.dirSound ⟨by decide, by decide⟩ rfl (by decide) (by decide)
    (show _ = some [⟨dotName, 2, 2⟩, ⟨dotDotName, 2, 2⟩, ⟨[102], 11, 1⟩] by decide) (by decide)

theorem directory_is_finite_map_one_name : ∃ v,
    DirRun 2 emptySample.volume [(.add [97] 11 1, true)] v ∧
      (dirFindEntry v (table v 2) [97]).map Prod.fst = some 11 := by
  have hok : (success ((DirCall.add [97] 11 1).run 2 emptySample.volume)).isSome = true := by decide
  obtain ⟨⟨_, v⟩, hrun⟩ := isSome_iff_exists.mp hok
  have hproper : (DirCall.add [97] 11 1).Proper := by
    refine ⟨by decide, by decide, ?_⟩
    rintro _ _ _ ⟨⟩
    decide
  have hreached : DirRun 2 emptySample.volume [(.add [97] 11 1, true)] v :=
    .done .start hproper (eq_ok_of_success hrun)
  refine ⟨v, hreached, ?_⟩
  exact (directory_is_finite_map emptySample_root_sound hreached).2.1 [97] (by decide)

end SmallOS.Ext2
