import SmallOS.Ext2.DirOps
import SmallOS.Lib.Splice

/-! A directory block as a chain of records. What the driver does to a block is stated
on the chain: a new record stands after the records in front of it, and a removal turns
one record into a free one. -/

namespace SmallOS.Ext2

open Bytes Splice List Option Nat

variable {name : Name} {fuel ino recLen type : Nat}

structure Record where
  inode : Nat
  recLen : Nat
  fileType : Nat
  name : Name
deriving DecidableEq

def Dirent.record (de : Dirent) : Record :=
  ⟨de.inode, de.recLen, de.fileType, tabulate de.nameLen de.raw⟩

def recordAt (buf : Buf) (off : Nat) : Option Record := (parseDirent buf off).map Dirent.record

inductive Chain (buf : Buf) : Nat → List Record → Nat → Prop
  | nil (off : Nat) : Chain buf off [] off
  | cons {off stop : Nat} {r : Record} {rs : List Record} (first : recordAt buf off = some r)
      (rest : Chain buf (off + r.recLen) rs stop) : Chain buf off (r :: rs) stop

section

variable {buf buf' : Buf} {off stop o : Nat} {r : Record} {rs rs' : List Record}

theorem nameEquals_eq {de : Dirent} (hname : name.length ≤ 255) :
    nameEquals de name = decide (de.record.name = name) := by
  rw [Bool.eq_iff_iff, decide_eq_true_iff, nameEquals, mod_eq_of_lt (by omega)]
  simp only [Bool.and_eq_true, beq_iff_eq, List.all_eq_true, mem_range]
  constructor
  · rintro ⟨hlen, hbytes⟩
    refine eq_of_getD 0 (by rw [Dirent.record, length_tabulate, hlen]) fun q => ?_
    rw [Dirent.record, getD_tabulate, hlen]
    split_ifs with hq
    · exact hbytes q hq
    · rw [getD_eq_default _ _ (by omega)]
  · rintro rfl
    have hlen : de.record.name.length = de.nameLen := length_tabulate ..
    refine ⟨hlen.symm, fun q hq => ?_⟩
    rw [hlen] at hq
    rw [Dirent.record, getD_tabulate, if_pos hq]

theorem recordAt_eq_some (h : recordAt buf off = some r) :
    ∃ de, parseDirent buf off = some de ∧ de.record = r := map_eq_some_iff.mp h

theorem recordAt_eq_none : recordAt buf off = none ↔ parseDirent buf off = none :=
  map_eq_none_iff

structure Parsed (buf : Buf) (off : Nat) (r : Record) : Prop where
  inode : readU32 buf off = r.inode
  recLen : readU16 buf (off + 4) = r.recLen
  nameLen : (buf (off + 6)).toNat = r.name.length
  fileType : (buf (off + 7)).toNat = r.fileType
  bytes : ∀ i < r.name.length, buf (off + 8 + i) = r.name.getD i 0
  fits : 8 + r.name.length ≤ r.recLen
  inside : off + r.recLen ≤ 4096

theorem recordAt_iff : recordAt buf off = some r ↔ Parsed buf off r := by
  constructor
  · intro h
    obtain ⟨de, hp, rfl⟩ := recordAt_eq_some h
    obtain ⟨_, h1, h2, h3⟩ := parseDirent_bounds hp
    have hlen : de.record.name.length = de.nameLen := length_tabulate ..
    have hfits : 8 + de.record.name.length ≤ de.recLen := by omega
    simp only [parseDirent] at hp
    split_ifs at hp
    obtain rfl := Option.some.inj hp
    refine ⟨rfl, rfl, hlen.symm, rfl, fun i hi => ?_, hfits, h2⟩
    rw [Dirent.record, getD_tabulate, if_pos (hlen ▸ hi)]
    rfl
  · intro h
    have hname : tabulate r.name.length (buf.shift (off + 8)) = r.name := by
      refine eq_of_getD 0 (length_tabulate ..) fun q => ?_
      rw [getD_tabulate]
      split_ifs with hq
      · exact h.bytes q hq
      · rw [getD_eq_default _ _ (by omega)]
    have hfits := h.fits
    have hinside := h.inside
    simp only [recordAt, parseDirent, h.recLen, h.nameLen, if_neg (show ¬ 4096 < off + 8 by omega),
      if_neg (show ¬ (r.recLen < 8 ∨ 4096 < off + r.recLen ∨ r.recLen - 8 < r.name.length) by omega),
      map_some, Dirent.record, h.inode, h.fileType, hname]

theorem recordAt_bounds (h : recordAt buf off = some r) :
    8 + r.name.length ≤ r.recLen ∧ off + r.recLen ≤ 4096 ∧ r.name.length ≤ 255 := by
  have hp := recordAt_iff.mp h
  have hbyte := (buf (off + 6)).toNat_lt
  rw [hp.nameLen] at hbyte
  exact ⟨hp.fits, hp.inside, by omega⟩

theorem recordAt_congr (h : recordAt buf off = some r)
    (same : ∀ i, off ≤ i → i < off + r.recLen → buf' i = buf i) : recordAt buf' off = some r := by
  have hp := recordAt_iff.mp h
  have hfits := hp.fits
  exact recordAt_iff.mpr { hp with
    inode := (readU32_congr fun i h1 h2 => same i h1 (by omega)).trans hp.inode
    recLen := (readU16_congr fun i h1 h2 => same i (by omega) (by omega)).trans hp.recLen
    nameLen := by rw [same _ (by omega) (by omega), hp.nameLen]
    fileType := by rw [same _ (by omega) (by omega), hp.fileType]
    bytes := fun i hi => (same _ (by omega) (by omega)).trans (hp.bytes i hi) }

theorem Chain.le (h : Chain buf off rs stop) : off ≤ stop := by
  induction h with
  | nil => exact le_refl _
  | cons first rest ih => omega

theorem Chain.append (h : Chain buf off rs o) (h' : Chain buf o rs' stop) :
    Chain buf off (rs ++ rs') stop := by
  induction h with
  | nil => exact h'
  | cons first rest ih => exact .cons first (ih h')

theorem Chain.single (h : recordAt buf off = some r) : Chain buf off [r] (off + r.recLen) :=
  .cons h (.nil _)

theorem Chain.congr (h : Chain buf off rs stop) (same : ∀ i, off ≤ i → i < stop → buf' i = buf i) :
    Chain buf' off rs stop := by
  induction h with
  | nil => exact .nil _
  | cons first rest ih =>
    have := rest.le
    exact .cons (recordAt_congr first fun i h1 h2 => same i h1 (by omega))
      (ih fun i h1 h2 => same i (by omega) h2)

theorem Chain.cut (h : Chain buf off rs o) (h' : Chain buf off rs' stop) (ho : o ≤ stop) :
    ∃ tail, rs' = rs ++ tail ∧ Chain buf o tail stop := by
  induction h generalizing rs' with
  | nil => exact ⟨rs', rfl, h'⟩
  | cons first rest ih =>
    cases h' with
    | nil =>
      have := rest.le
      have := recordAt_bounds first
      omega
    | cons first' rest' =>
      obtain rfl := some.inj (first.symm.trans first')
      obtain ⟨tail, rfl, htail⟩ := ih rest' ho
      exact ⟨tail, rfl, htail⟩

theorem Chain.eq_nil (h : Chain buf 4096 rs stop) : rs = [] := by
  cases h with
  | nil => rfl
  | cons first rest =>
    obtain ⟨h1, h2, _⟩ := recordAt_bounds first
    omega

theorem Chain.head (h : Chain buf off rs stop) (hstop : off < stop) :
    ∃ r tail, rs = r :: tail ∧ recordAt buf off = some r ∧ Chain buf (off + r.recLen) tail stop := by
  cases h with
  | nil => omega
  | cons first rest => exact ⟨_, _, rfl, first, rest⟩

end

section

variable {β : Type} {buf : Buf} {bad : Nat → β} {visit : Nat → Dirent → Option β} {off stop : Nat}
  {rs : List Record}

theorem scanDirents_ends (hoff : off ≤ 4096) (hfuel : 4096 ≤ off + 8 * fuel)
    {Q : Record → Prop} (hquiet : ∀ o de, visit o de = none → Q de.record) {res : Option β}
    (hres : scanDirents buf bad visit fuel off = res) :
    ∃ rs o, Chain buf off rs o ∧ (∀ r ∈ rs, Q r) ∧
      ((o = 4096 ∧ res = none) ∨ (o < 4096 ∧ parseDirent buf o = none ∧ res = some (bad o)) ∨
        ∃ de, o < 4096 ∧ parseDirent buf o = some de ∧ visit o de = res ∧ res ≠ none) := by
  induction fuel generalizing off with
  | zero =>
    refine ⟨[], off, .nil _, (fun _ h => nomatch h), .inl ⟨by omega, ?_⟩⟩
    rw [← hres]
    rfl
  | succ fuel ih =>
    unfold scanDirents at hres
    split_ifs at hres with hlt
    · cases hp : parseDirent buf off with
      | none =>
        rw [hp] at hres
        exact ⟨[], off, .nil _, (fun _ h => nomatch h), .inr (.inl ⟨hlt, hp, hres.symm⟩)⟩
      | some de =>
        simp only [hp] at hres
        cases hvisit : visit off de with
        | some x =>
          simp only [hvisit] at hres
          refine ⟨[], off, .nil _, (fun _ h => nomatch h), .inr (.inr ⟨de, hlt, hp, ?_, ?_⟩)⟩
          · rw [hvisit, hres]
          · rw [← hres]
            exact some_ne_none _
        | none =>
          simp only [hvisit] at hres
          have hrec : recordAt buf off = some de.record := by rw [recordAt, hp, map_some]
          obtain ⟨hlen, hend, _⟩ := recordAt_bounds hrec
          have hsame : de.record.recLen = de.recLen := rfl
          rw [hsame] at hlen hend
          obtain ⟨rs, o, hchain, hall, hcases⟩ := ih hend (by omega) hres
          refine ⟨de.record :: rs, o, .cons hrec hchain, ?_, hcases⟩
          rintro r (_ | ⟨_, hr⟩)
          · exact hquiet off de hvisit
          · exact hall r hr
    · exact ⟨[], off, .nil _, (fun _ h => nomatch h), .inl ⟨by omega, hres.symm⟩⟩

end

structure Entry where
  name : Name
  ino : Nat
  type : Nat
deriving DecidableEq

def Record.entry (r : Record) : Option Entry :=
  if r.inode = 0 then none else some ⟨r.name, r.inode, r.fileType⟩

def live (rs : List Record) : List Entry := rs.filterMap Record.entry

section

variable {buf placed : Buf} {off o stop : Nat} {r : Record} {rs : List Record}

theorem live_append (rs rs' : List Record) : live (rs ++ rs') = live rs ++ live rs' :=
  filterMap_append

theorem live_free (h : r.inode = 0) : live [r] = [] := by
  simp only [live, filterMap_cons, Record.entry, h, if_true, filterMap_nil]

theorem live_record (h : r.inode ≠ 0) : live [r] = [⟨r.name, r.inode, r.fileType⟩] := by
  simp only [live, filterMap_cons, Record.entry, h, if_false, filterMap_nil]

theorem dirWriteEntry_outside {i : Nat}
    (h : dirWriteEntry buf off ino recLen name type = some placed)
    (hi : i < off ∨ off + recLen ≤ i) : placed i = buf i := by
  unfold dirWriteEntry at h
  split_ifs at h with hbad
  obtain rfl := Option.some.inj h
  have : 8 + name.length ≤ recLen := by
    unfold dirRecLen at hbad
    omega
  rw [copy_of_outside (by omega), Buf.set_of_ne (by omega), Buf.set_of_ne (by omega),
    writeU16_of_outside (by omega), writeU32_of_outside (by omega)]

theorem dirWriteEntry_record
    (h : dirWriteEntry buf off ino recLen name type = some placed) (hino : ino < 4294967296)
    (htype : type < 256) : recordAt placed off = some ⟨ino, recLen, type, name⟩ := by
  unfold dirWriteEntry at h
  split_ifs at h with hbad
  simp only [not_or, not_lt] at hbad
  obtain ⟨hname, hlen, hend⟩ := hbad
  have hlen : 8 + name.length ≤ recLen := by
    unfold dirRecLen at hlen
    omega
  obtain rfl := Option.some.inj h
  generalize hb1 : writeU32 buf off ino = b1
  generalize hb2 : writeU16 b1 (off + 4) recLen = b2
  generalize hb3 : b2.set (off + 6) (UInt8.ofNat name.length) = b3
  generalize hb4 : b3.set (off + 7) (UInt8.ofNat type) = b4
  have hbelow : ∀ i, i < off + 6 → copy b4 (off + 8) name.length (ofList name) i = b2 i := by
    intro i hi
    rw [copy_of_outside (by omega), ← hb4, Buf.set_of_ne (by omega), ← hb3,
      Buf.set_of_ne (by omega)]
  exact recordAt_iff.mpr {
    inode := by
      rw [readU32_congr fun i _ h2 => hbelow i (by omega), ← hb2,
        readU32_writeU16_of_disjoint (by omega), ← hb1, readU32_writeU32]
      exact mod_eq_of_lt hino
    recLen := by
      rw [readU16_congr fun i _ h2 => hbelow i (by omega), ← hb2, readU16_writeU16]
      exact mod_eq_of_lt (by omega)
    nameLen := by
      rw [copy_of_outside (by omega), ← hb4, Buf.set_of_ne (by omega), ← hb3, Buf.set_same,
        UInt8.toNat_ofNat']
      exact mod_eq_of_lt (by omega)
    fileType := by
      rw [copy_of_outside (by omega), ← hb4, Buf.set_same, UInt8.toNat_ofNat']
      exact mod_eq_of_lt htype
    bytes := fun i (hi : i < name.length) => by
      rw [copy_of_inside (by omega) (by omega), Nat.add_sub_cancel_left]
      rfl
    fits := hlen
    inside := hend }

theorem recordAt_shorten {actual : Nat} (h : recordAt buf off = some r)
    (hlen : 8 + r.name.length ≤ actual) (hle : actual ≤ r.recLen) :
    recordAt (writeU16 buf (off + 4) actual) off = some { r with recLen := actual } := by
  have hp := recordAt_iff.mp h
  have hinside : off + actual ≤ 4096 := by
    have := hp.inside
    omega
  have hout : ∀ i, i < off + 4 ∨ off + 6 ≤ i → writeU16 buf (off + 4) actual i = buf i :=
    fun i hi => writeU16_of_outside (by omega)
  exact recordAt_iff.mpr {
    inode := (readU32_congr fun i _ h2 => hout i (by omega)).trans hp.inode
    recLen := by
      rw [readU16_writeU16]
      exact mod_eq_of_lt (by omega)
    nameLen := by rw [hout _ (by omega), hp.nameLen]
    fileType := by rw [hout _ (by omega), hp.fileType]
    bytes := fun i hi => (hout _ (by omega)).trans (hp.bytes i hi)
    fits := hlen
    inside := hinside }

theorem recordAt_clear (h : recordAt buf off = some r) :
    recordAt (writeU32 buf off 0) off = some { r with inode := 0 } := by
  have hp := recordAt_iff.mp h
  have hout : ∀ i, off + 4 ≤ i → writeU32 buf off 0 i = buf i :=
    fun i hi => writeU32_of_outside (by omega)
  exact recordAt_iff.mpr { hp with
    inode := readU32_writeU32 ..
    recLen := (readU16_congr fun i h1 _ => hout i h1).trans hp.recLen
    nameLen := by rw [hout _ (by omega), hp.nameLen]
    fileType := by rw [hout _ (by omega), hp.fileType]
    bytes := fun i hi => (hout _ (by omega)).trans (hp.bytes i hi) }

def GaveRoom (buf : Buf) (o stop : Nat) (kept : List Entry) : Prop :=
  (o < 4096 ∧ stop = 4096 ∧ recordAt buf o = none ∧ kept = []) ∨
    ∃ r, recordAt buf o = some r ∧ stop = o + r.recLen ∧ kept = live [r]

theorem dirPlace_chain {child : Nat} {slot : DirSlot}
    (hslot : dirSlotInBlock (dirRecLen name.length) buf = some slot)
    (hplace : dirPlace buf child name type slot = some placed) (hchild : child < 4294967296)
    (htype : type < 256) :
    ∃ pre kept new o stop, Chain buf 0 pre o ∧ GaveRoom buf o stop (live kept) ∧
      Chain placed 0 (pre ++ (kept ++ [new])) stop ∧ (∀ i, stop ≤ i → placed i = buf i) ∧
      new.inode = child ∧ new.fileType = type ∧ new.name = name := by
  obtain ⟨pre, o, hpre, -, hend⟩ := scanDirents_ends (Q := fun _ => True) (Nat.zero_le 4096)
    (by decide) (fun _ _ _ => trivial) hslot
  have hbefore : ∀ {b : Buf}, (∀ i, i < o → b i = buf i) → Chain b 0 pre o :=
    fun same => hpre.congr fun i _ hi => same i hi
  -- the record fills the place of bytes that did not parse
  have fresh : ∀ {len : Nat}, o < 4096 → o + len = 4096 → parseDirent buf o = none →
      dirWriteEntry buf o child len name type = some placed →
      ∃ pre kept new o stop, Chain buf 0 pre o ∧ GaveRoom buf o stop (live kept) ∧
        Chain placed 0 (pre ++ (kept ++ [new])) stop ∧ (∀ i, stop ≤ i → placed i = buf i) ∧
        new.inode = child ∧ new.fileType = type ∧ new.name = name := by
    intro len ho hlen hparse hwrite
    have hnew := Chain.single (dirWriteEntry_record hwrite hchild htype)
    exact ⟨pre, [], _, o, o + len, hpre, .inl ⟨ho, hlen, recordAt_eq_none.mpr hparse, rfl⟩,
      (hbefore fun i hi => dirWriteEntry_outside hwrite (.inl hi)).append hnew,
      fun i hi => dirWriteEntry_outside hwrite (.inr hi), rfl, rfl, rfl⟩
  obtain ⟨_, hres⟩ | ⟨ho, hparse, hres⟩ | ⟨de, ho, hparse, hvisit, _⟩ := hend
  · cases hres
  · obtain rfl := Option.some.inj hres
    split_ifs at hplace with h1 h2
    · subst h1
      exact fresh ho rfl hparse hplace
    · exact fresh ho (by omega) hparse hplace
    · cases hplace
  · have hrec : recordAt buf o = some de.record := by rw [recordAt, hparse, map_some]
    split_ifs at hvisit with h1 h2
    · -- a free record is taken over
      obtain rfl := Option.some.inj hvisit
      have hnew := Chain.single (dirWriteEntry_record hplace hchild htype)
      exact ⟨pre, [], _, o, o + de.recLen, hpre, .inr ⟨de.record, hrec, rfl, (live_free h1.1).symm⟩,
        (hbefore fun i hi => dirWriteEntry_outside hplace (.inl hi)).append hnew,
        fun i hi => dirWriteEntry_outside hplace (.inr hi), rfl, rfl, rfl⟩
    · -- a live record is shortened and the new one follows it
      obtain rfl := Option.some.inj hvisit
      have hnameLen : de.record.name.length = de.nameLen := length_tabulate ..
      have hactual : 8 + de.record.name.length ≤ dirRecLen de.nameLen := by
        rw [hnameLen]
        unfold dirRecLen
        omega
      have hroom : o + dirRecLen de.nameLen + (de.recLen - dirRecLen de.nameLen) = o + de.recLen := by
        omega
      have hout : ∀ i, i < o + dirRecLen de.nameLen ∨ o + de.recLen ≤ i →
          placed i = writeU16 buf (o + 4) (dirRecLen de.nameLen) i :=
        fun i hi => dirWriteEntry_outside hplace (by omega)
      have hkept := recordAt_shorten hrec hactual (show dirRecLen de.nameLen ≤ de.recLen by omega)
      have hkept' := recordAt_congr hkept fun i _ h2 => hout i (.inl h2)
      have hnew := Chain.single (dirWriteEntry_record hplace hchild htype)
      rw [hroom] at hnew
      refine ⟨pre, [{ de.record with recLen := dirRecLen de.nameLen }], _, o, o + de.recLen, hpre,
        .inr ⟨de.record, hrec, rfl, ?_⟩, (hbefore fun i hi => ?_).append (.cons hkept' hnew),
        fun i hi => ?_, rfl, rfl, rfl⟩
      · rw [live_record h2.1, live_record h2.1]
      · rw [hout i (.inl (by omega)), writeU16_of_outside (by omega)]
      · rw [hout i (.inr hi), writeU16_of_outside (by omega)]

theorem Chain.clear {pre : List Record} (hpre : Chain buf 0 pre o) (hrec : recordAt buf o = some r) :
    Chain (writeU32 buf o 0) 0 (pre ++ [{ r with inode := 0 }]) (o + r.recLen) ∧
      ∀ i, o + r.recLen ≤ i → writeU32 buf o 0 i = buf i := by
  obtain ⟨hlen, _, _⟩ := recordAt_bounds hrec
  refine ⟨?_, fun i hi => writeU32_of_outside (by omega)⟩
  exact (hpre.congr fun i _ hi => writeU32_of_outside (.inl hi)).append
    (.single (recordAt_clear hrec))

end

def parseChain (buf : Buf) : (fuel off : Nat) → Option (List Record)
  | 0, off => if 4096 ≤ off then some [] else none
  | fuel + 1, off =>
    if off < 4096 then
      match recordAt buf off with
      | none => none
      | some r => (parseChain buf fuel (off + r.recLen)).map (r :: ·)
    else some []

def blockRecords (buf : Buf) : Option (List Record) := parseChain buf 512 0

section

variable {buf : Buf} {rs : List Record}

theorem parseChain_eq_some {off : Nat} (hoff : off ≤ 4096) (hfuel : 4096 ≤ off + 8 * fuel) :
    parseChain buf fuel off = some rs ↔ Chain buf off rs 4096 := by
  induction fuel generalizing off rs with
  | zero =>
    obtain rfl : off = 4096 := by omega
    simp only [parseChain, le_refl, if_true, Option.some.injEq]
    exact ⟨fun h => h ▸ .nil _, fun h => h.eq_nil.symm⟩
  | succ fuel ih =>
    unfold parseChain
    by_cases hlt : off < 4096
    · rw [if_pos hlt]
      constructor
      · intro h
        cases hrec : recordAt buf off with
        | none => rw [hrec] at h; cases h
        | some r =>
          rw [hrec] at h
          obtain ⟨rest, hrest, rfl⟩ := map_eq_some_iff.mp h
          obtain ⟨h1, h2, _⟩ := recordAt_bounds hrec
          exact .cons hrec ((ih h2 (by omega)).mp hrest)
      · intro h
        obtain ⟨r, tail, rfl, hrec, htail⟩ := h.head hlt
        obtain ⟨h1, h2, _⟩ := recordAt_bounds hrec
        rw [hrec]
        simp only
        rw [(ih h2 (by omega)).mpr htail, map_some]
    · obtain rfl : off = 4096 := by omega
      rw [if_neg hlt, Option.some.injEq]
      exact ⟨fun h => h ▸ .nil _, fun h => h.eq_nil.symm⟩

theorem blockRecords_eq_some : blockRecords buf = some rs ↔ Chain buf 0 rs 4096 :=
  parseChain_eq_some (Nat.zero_le _) (by decide)

end

end SmallOS.Ext2
