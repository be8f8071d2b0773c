import SmallOS.Ext2.Entries
import SmallOS.Ext2.Removal

/-! A directory as a list of entries. A lookup is a search of the list, `dir_add_entry`
inserts an entry and `dir_remove_entry` deletes one. -/

namespace SmallOS.Ext2

open Bytes Prog List Option

variable {logical m n : Nat}

def entriesOf (blk : Nat → Option Buf) : (n logical : Nat) → Option (List Entry)
  | 0, _ => some []
  | n + 1, logical =>
    match blk logical with
    | none => entriesOf blk n (logical + 1)
    | some buf =>
      match blockRecords buf with
      | none => none
      | some rs => (entriesOf blk n (logical + 1)).map (live rs ++ ·)

def dirEntries (v : Vol) (nd : Inode) : Option (List Entry) :=
  entriesOf (blockAt v.disk nd) (inodeBlockCount nd) 0

def Entry.found (e : Entry) : Nat × Nat := (e.ino, e.type)

def findIn (es : List Entry) (name : Name) : Option (Nat × Nat) :=
  (es.find? (·.name = name)).map Entry.found

section

variable {buf placed : Buf} {name : Name} {rs : List Record} {es es' : List Entry}

theorem findIn_append (es es' : List Entry) (name : Name) :
    findIn (es ++ es') name = (findIn es name).or (findIn es' name) := by
  rw [findIn, findIn, findIn, find?_append]
  cases es.find? (·.name = name) with
  | none => rfl
  | some e => rfl

theorem findIn_cons (e : Entry) (es : List Entry) (name : Name) :
    findIn (e :: es) name = if e.name = name then some e.found else findIn es name := by
  rw [findIn, find?_cons]
  by_cases h : e.name = name
  · simp only [h, decide_true, if_true, map_some]
  · simp only [h, decide_false, if_false, findIn]

theorem findIn_eq_none : findIn es name = none ↔ ∀ e ∈ es, e.name ≠ name := by
  rw [findIn, map_eq_none_iff, find?_eq_none]
  simp only [decide_eq_true_eq]

theorem dirFindInBlock_chain (hname : name.length ≤ 255) (hchain : Chain buf 0 rs 4096) :
    dirFindInBlock name buf = (findIn (live rs) name).map some := by
  rw [dirFindInBlock_eq]
  obtain ⟨rs', o, hchain', hmiss, ⟨rfl, hnone⟩ | ⟨ho, hdead, _⟩ | ⟨de, ho, hp, hhit, hfound⟩⟩ :=
    matchInBlock_ends hname buf
  · obtain ⟨tail, heq, htail⟩ := hchain'.cut hchain (le_refl _)
    obtain rfl := htail.eq_nil
    rw [append_nil] at heq
    rw [hnone, heq, findIn_eq_none.mpr (misses_live hmiss)]
    rfl
  · obtain ⟨tail, _, htail⟩ := hchain'.cut hchain ho.le
    obtain ⟨r, _, _, hrec, _⟩ := htail.head ho
    cases hdead.symm.trans hrec
  · obtain ⟨tail, rfl, htail⟩ := hchain'.cut hchain ho.le
    obtain ⟨r, rest, rfl, hrec, _⟩ := htail.head ho
    obtain rfl : de.record = r := by
      rw [recordAt, hp] at hrec
      exact Option.some.inj hrec
    have hlive : de.record.inode ≠ 0 ∧ de.record.name = name := by
      simpa only [Record.Misses, not_or, not_not] using hhit
    rw [hfound, live_append, findIn_append, findIn_eq_none.mpr (misses_live hmiss), none_or,
      ← singleton_append, live_append, live_record hlive.1, singleton_append, findIn_cons,
      if_pos hlive.2]
    rfl

theorem dirPlace_live {child type : Nat} {slot : DirSlot} (hchain : Chain buf 0 rs 4096)
    (hslot : dirSlotInBlock (dirRecLen name.length) buf = some slot)
    (hplace : dirPlace buf child name type slot = some placed) (hchild : child < 4294967296)
    (hne : child ≠ 0) (htype : type < 256) :
    ∃ rs' front back, Chain placed 0 rs' 4096 ∧ live rs = front ++ back ∧
      live rs' = front ++ ⟨name, child, type⟩ :: back := by
  obtain ⟨pre, kept, new, o, stop, hpre, hgave, hplaced, hafter, rfl, rfl, rfl⟩ :=
    dirPlace_chain hslot hplace hchild htype
  obtain ⟨ho, _, hdead, _⟩ | ⟨r, hrec, rfl, hkept⟩ := hgave
  · obtain ⟨tail, _, htail⟩ := hpre.cut hchain ho.le
    obtain ⟨r, _, _, hrec, _⟩ := htail.head ho
    cases hdead.symm.trans hrec
  · have hthrough := hpre.append (Chain.single hrec)
    obtain ⟨tail, rfl, htail⟩ := hthrough.cut hchain (recordAt_bounds hrec).2.1
    refine ⟨pre ++ (kept ++ [new]) ++ tail, live pre ++ live kept, live tail,
      hplaced.append (htail.congr fun i hi _ => hafter i hi), ?_, ?_⟩
    · rw [live_append, live_append, hkept]
    · rw [live_append, live_append, live_append, live_record hne, append_assoc,
        append_assoc, append_assoc]
      rfl

theorem dirPlace_zeros {child type : Nat}
    (hwrite : dirWriteEntry zeros 0 child 4096 name type = some placed)
    (hchild : child < 4294967296) (hne : child ≠ 0) (htype : type < 256) :
    ∃ rs', Chain placed 0 rs' 4096 ∧ live rs' = [⟨name, child, type⟩] :=
  ⟨_, .single (dirWriteEntry_record hwrite hchild htype), live_record hne⟩

theorem matchInBlock_clear (hname : name.length ≤ 255) (hchain : Chain buf 0 rs 4096) {o : Nat}
    {de : Dirent} (hfound : matchInBlock name buf = some (some (o, de))) :
    ∃ rs' front back, Chain (writeU32 buf o 0) 0 rs' 4096 ∧
      live rs = front ++ ⟨name, de.inode, de.fileType⟩ :: back ∧
      (∀ e ∈ front, e.name ≠ name) ∧ live rs' = front ++ back := by
  obtain ⟨pre, o', hpre, hmiss, ⟨_, hno⟩ | ⟨_, _, hno⟩ | ⟨de', ho, hp, hhit, hyes⟩⟩ :=
    matchInBlock_ends hname buf
  · cases hno.symm.trans hfound
  · cases Option.some.inj (hno.symm.trans hfound)
  · obtain ⟨rfl, rfl⟩ := Prod.mk.inj (Option.some.inj (Option.some.inj (hyes.symm.trans hfound)))
    have hrec : recordAt buf o' = some de'.record := by rw [recordAt, hp, map_some]
    have hlive : de'.record.inode ≠ 0 ∧ de'.record.name = name := by
      simpa only [Record.Misses, not_or, not_not] using hhit
    obtain ⟨tail, rfl, htail⟩ :=
      (hpre.append (Chain.single hrec)).cut hchain (recordAt_bounds hrec).2.1
    obtain ⟨hcleared, hafter⟩ := hpre.clear hrec
    refine ⟨_, live pre, live tail, hcleared.append (htail.congr fun i hi _ => hafter i hi), ?_,
      misses_live hmiss, ?_⟩
    · rw [live_append, live_append, live_record hlive.1, hlive.2, append_assoc]
      rfl
    · rw [live_append, live_append, live_free rfl, append_nil]

end

section

variable {blk blk' : Nat → Option Buf} {name : Name} {es : List Entry}

theorem entriesOf_congr (h : ∀ m, logical ≤ m → m < logical + n → blk' m = blk m) :
    entriesOf blk' n logical = entriesOf blk n logical := by
  induction n generalizing logical with
  | zero => rfl
  | succ n ih =>
    unfold entriesOf
    rw [h logical (le_refl _) (by omega), ih fun m h1 h2 => h m (by omega) (by omega)]

theorem entriesOf_add (blk : Nat → Option Buf) (a b logical : Nat) :
    entriesOf blk (a + b) logical = (entriesOf blk a logical).bind fun es =>
      (entriesOf blk b (logical + a)).map (es ++ ·) := by
  induction a generalizing logical with
  | zero =>
    rw [Nat.zero_add, entriesOf, bind_some, Nat.add_zero]
    simp only [nil_append, Option.map_id']
  | succ a ih =>
    rw [Nat.add_right_comm, entriesOf, entriesOf, ih,
      show logical + 1 + a = logical + (a + 1) by omega]
    cases blk logical with
    | none => rfl
    | some buf =>
      simp only
      cases blockRecords buf with
      | none => rfl
      | some rs =>
        simp only
        cases entriesOf blk a (logical + 1) with
        | none => rfl
        | some es =>
          simp only [bind_some, map_some, Option.map_map, Function.comp_def, append_assoc]

theorem entriesOf_split (hm : m < n) (h : entriesOf blk n 0 = some es) :
    ∃ pre mid post, es = pre ++ (mid ++ post) ∧ entriesOf blk m 0 = some pre ∧
      entriesOf blk 1 m = some mid ∧ entriesOf blk (n - (m + 1)) (m + 1) = some post := by
  rw [show n = m + (1 + (n - (m + 1))) by omega, entriesOf_add, bind_eq_some_iff] at h
  obtain ⟨pre, hpre, h⟩ := h
  rw [Nat.zero_add, entriesOf_add] at h
  obtain ⟨rest, hrest, rfl⟩ := map_eq_some_iff.mp h
  obtain ⟨mid, hmid, h⟩ := bind_eq_some_iff.mp hrest
  obtain ⟨post, hpost, rfl⟩ := map_eq_some_iff.mp h
  exact ⟨pre, mid, post, rfl, hpre, hmid, hpost⟩

theorem entriesOf_change (hm : m < n) {pre mid post : List Entry}
    (hpre : entriesOf blk m 0 = some pre) (hmid : entriesOf blk' 1 m = some mid)
    (hpost : entriesOf blk (n - (m + 1)) (m + 1) = some post)
    (elsewhere : ∀ k, k ≠ m → blk' k = blk k) :
    entriesOf blk' n 0 = some (pre ++ (mid ++ post)) := by
  have hpre' : entriesOf blk' m 0 = some pre := by
    rw [← hpre]
    exact entriesOf_congr fun k _ hk => elsewhere k (by omega)
  have hpost' : entriesOf blk' (n - (m + 1)) (m + 1) = some post := by
    rw [← hpost]
    exact entriesOf_congr fun k hk _ => elsewhere k (by omega)
  rw [show n = m + (1 + (n - (m + 1))) by omega, entriesOf_add, hpre', bind_some,
    Nat.zero_add, entriesOf_add, hmid, bind_some, hpost']
  rfl

theorem entriesOf_one {buf : Buf} {rs : List Record} (hb : blk m = some buf)
    (hchain : Chain buf 0 rs 4096) : entriesOf blk 1 m = some (live rs) := by
  simp only [entriesOf, hb, blockRecords_eq_some.mpr hchain, map_some, append_nil]

theorem entriesOf_one_some {buf : Buf} (hb : blk m = some buf)
    (h : entriesOf blk 1 m = some es) : ∃ rs, Chain buf 0 rs 4096 ∧ es = live rs := by
  simp only [entriesOf, hb] at h
  cases hrs : blockRecords buf with
  | none => rw [hrs] at h; cases h
  | some rs =>
    simp only [hrs, map_some, append_nil] at h
    exact ⟨rs, blockRecords_eq_some.mp hrs, (Option.some.inj h).symm⟩

theorem overContents_quiet {β : Type} {ended : β} {visit : Nat → Buf → Option β}
    (h : ∀ m buf, logical ≤ m → m < logical + n → blk m = some buf → visit m buf = none) :
    overContents blk ended visit n logical = ended := by
  obtain ⟨hend, _⟩ | ⟨m, buf, h1, h2, hb, hvisit, _⟩ := overContents_cases blk ended visit n logical
  · exact hend
  · cases (h m buf h1 h2 hb).symm.trans hvisit

theorem overContents_find (hname : name.length ≤ 255) (h : entriesOf blk n logical = some es) :
    overContents blk none (fun _ buf => dirFindInBlock name buf) n logical = findIn es name := by
  induction n generalizing logical es with
  | zero =>
    obtain rfl := Option.some.inj h
    rfl
  | succ n ih =>
    unfold entriesOf at h
    unfold overContents
    cases hb : blk logical with
    | none =>
      rw [hb] at h
      exact ih h
    | some buf =>
      simp only [hb] at h
      cases hrs : blockRecords buf with
      | none => rw [hrs] at h; cases h
      | some rs =>
        simp only [hrs] at h
        obtain ⟨rest, hrest, rfl⟩ := map_eq_some_iff.mp h
        simp only [dirFindInBlock_chain hname (blockRecords_eq_some.mp hrs), findIn_append]
        cases findIn (live rs) name with
        | none => exact ih hrest
        | some r => rfl

end

section

variable {v v' : Vol} {ino child type : Nat} {nd nd' : Inode} {name : Name} {es : List Entry}

theorem dirFindEntry_listed (hv : Ready v) (h : Held v ino nd) (hdir : inodeIsDir nd = true)
    (hname : name.length ≤ 255) (hes : dirEntries v nd = some es) :
    dirFindEntry v nd name = findIn es name := by
  have hcount := inodeBlockCount_lt nd
  rw [dirFindEntry, if_pos hdir, overBlocks_eq hv h.lt (by omega)]
  exact overContents_find hname hes

theorem EntryAdded.listed (h : EntryAdded ino v nd v' nd' name child type)
    (hsized : 0 < inodeBlockCount nd) (hne : child ≠ 0) (hchild : child < 4294967296)
    (htype : type < 256) (hes : dirEntries v nd = some es) : ∃ front back, es = front ++ back ∧
      dirEntries v' nd' = some (front ++ ⟨name, child, type⟩ :: back) := by
  have hblocks : dirBlocks nd = inodeBlockCount nd := by rw [dirBlocks, if_neg (by omega)]
  obtain ⟨m, hm, slot, placed, hslot, hplace, hadd, hsize, _, hfull⟩ |
    ⟨placed, hwrite, h12, hadd, hsize, hfull⟩ := h
  · have hcount : inodeBlockCount nd' = inodeBlockCount nd := by
      rw [inodeBlockCount_congr hsize]
      exact growTo_count (by omega) slot
    obtain ⟨pre, mid, post, rfl, hpre, hmid, hpost⟩ :=
      entriesOf_split (show m < inodeBlockCount nd by omega) hes
    have finish : ∀ rs' front back, Chain placed 0 rs' 4096 → mid = front ++ back →
        live rs' = front ++ ⟨name, child, type⟩ :: back →
        ∃ front back, pre ++ (mid ++ post) = front ++ back ∧
          dirEntries v' nd' = some (front ++ ⟨name, child, type⟩ :: back) := by
      rintro rs' front back hchain rfl hlive
      refine ⟨pre ++ front, back ++ post, by simp only [append_assoc], ?_⟩
      rw [dirEntries, hcount, entriesOf_change (by omega) hpre (entriesOf_one hadd.here hchain)
        hpost hadd.elsewhere, hlive]
      simp only [append_assoc, cons_append]
    cases hb : blockAt v.disk nd m with
    | none =>
      simp only [entriesOf, hb, Option.some.injEq] at hmid
      simp only [hb, getD_none, dirSlotInBlock_zeros] at hslot hplace
      obtain rfl := Option.some.inj hslot
      obtain ⟨rs', hchain, hlive⟩ := dirPlace_zeros hplace hchild hne htype
      exact finish rs' [] [] hchain hmid.symm hlive
    | some buf =>
      simp only [hb, getD_some] at hslot hplace
      obtain ⟨rs, hchain, rfl⟩ := entriesOf_one_some hb hmid
      obtain ⟨rs', front, back, hchain', hlive, hlive'⟩ :=
        dirPlace_live hchain hslot hplace hchild hne htype
      exact finish rs' front back hchain' hlive hlive'
  · obtain ⟨rs', hchain, hlive⟩ := dirPlace_zeros hwrite hchild hne htype
    have hcount : inodeBlockCount nd' = inodeBlockCount nd + 1 := by
      rw [← hblocks]
      unfold inodeBlockCount
      omega
    refine ⟨es, [], (append_nil _).symm, ?_⟩
    rw [dirEntries, hcount, entriesOf_add, Nat.zero_add,
      entriesOf_congr fun k _ hk => hadd.elsewhere k (by omega), show entriesOf _ _ 0 = some es from hes,
      bind_some, ← hblocks, entriesOf_one hadd.here hchain, hlive]
    rfl

theorem SameFile.dirEntries {j : Nat} (h : SameFile v v' j) (hdir : inodeIsDir (table v j) = true) :
    dirEntries v' (table v' j) = dirEntries v (table v j) := by
  rw [Ext2.dirEntries, Ext2.dirEntries, h.record]
  exact entriesOf_congr fun m _ _ => h.contents (inodeIsSpecial_of_isDir hdir) m

theorem EntryRemoved.listed (h : EntryRemoved ino v nd v' name) (hname : name.length ≤ 255)
    (hes : dirEntries v nd = some es) :
    ∃ front e back, es = front ++ e :: back ∧ e.name = name ∧ (∀ x ∈ front, x.name ≠ name) ∧
      dirEntries v' nd = some (front ++ back) := by
  obtain ⟨m, o, de, buf, hmatch, hb, hadd⟩ := h
  obtain ⟨hm, buf', hb', hfound, hbefore⟩ := dirMatch_eq_some hmatch
  obtain rfl := Option.some.inj (hb.symm.trans hb')
  obtain ⟨pre, mid, post, rfl, hpre, hmid, hpost⟩ := entriesOf_split hm hes
  obtain ⟨rs, hchain, rfl⟩ := entriesOf_one_some hb hmid
  obtain ⟨rs', front, back, hchain', hlive, hmiss, hlive'⟩ := matchInBlock_clear hname hchain hfound
  refine ⟨pre ++ front, ⟨name, de.inode, de.fileType⟩, back ++ post, ?_, rfl, ?_, ?_⟩
  · rw [hlive]
    simp only [append_assoc, cons_append]
  · intro x hx
    obtain hx | hx := mem_append.mp hx
    · have hnone := overContents_find hname hpre
      rw [overContents_quiet] at hnone
      · exact findIn_eq_none.mp hnone.symm x hx
      · intro k buf' _ hk hb'
        rw [dirFindInBlock_eq, hbefore k buf' (by omega) hb']
        rfl
    · exact hmiss x hx
  · rw [dirEntries, entriesOf_change hm hpre (entriesOf_one hadd.here hchain') hpost hadd.elsewhere,
      hlive']
    simp only [append_assoc]

end

end SmallOS.Ext2
