import SmallOS.Ext2.FileOps

/-! Adding and removing directory entries, seen from the volume. An addition changes one block of
the directory, a removal one record. -/

namespace SmallOS.Ext2
open Bytes Prog Ownership Option

variable {buf : Buf} {slot : DirSlot} {de : Dirent} {name : Name}
  {b child logical m n off type : Nat} {d : Nat → Buf} {β γ : Type}

def blockAt (d : Nat → Buf) (nd : Inode) (logical : Nat) : Option Buf :=
  let b := tree d nd (dataSlot logical)
  if b = 0 then none else some (d b)

section

variable {ino : Nat} {v v1 v2 : Vol} {nd nd1 nd2 : Inode}

theorem blockAt_eq_some (h : blockAt d nd logical = some buf) :
    tree d nd (dataSlot logical) ≠ 0 ∧ d (tree d nd (dataSlot logical)) = buf := by
  simp only [blockAt] at h
  split_ifs at h with h0
  exact ⟨h0, Option.some.inj h⟩

theorem blockAt_of_ne (h : tree d nd (dataSlot logical) ≠ 0) :
    blockAt d nd logical = some (d (tree d nd (dataSlot logical))) := by
  simp only [blockAt, h, if_false]

theorem blockAt_congr {d' : Nat → Buf}
    (htree : tree d' nd1 (dataSlot logical) = tree d nd (dataSlot logical))
    (hdisk : tree d nd (dataSlot logical) ≠ 0 →
      d' (tree d nd (dataSlot logical)) = d (tree d nd (dataSlot logical))) :
    blockAt d' nd1 logical = blockAt d nd logical := by
  simp only [blockAt, htree]
  split_ifs with h
  · rfl
  · rw [hdisk h]

theorem Mapped.blockAt_of_ne {zero : Bool}
    (h : Mapped ino v nd v1 nd1 logical b zero) (hheld : Held v ino nd) (hm : m ≠ logical) :
    blockAt v1.disk nd1 m = blockAt v.disk nd m :=
  blockAt_congr (h.elsewhere m hm) fun hne => h.toGrow.content hheld hne

theorem getDataBlock_present (hv : Ready v) (h : Held v ino nd)
    (hl : logical < maxLogical) (hne : tree v.disk nd (dataSlot logical) ≠ 0) (zero : Bool) :
    inodeGetDataBlockEx nd logical zero v = .ok (nd, tree v.disk nd (dataSlot logical)) v := by
  unfold maxLogical at hl
  have entry : ∀ (p : Ptr) (i : Nat) (z : Bool), tree v.disk nd (.entry p i) ≠ 0 →
      ensurePtrEntry nd (ptr v.disk nd p) i z v = .ok (nd, tree v.disk nd (.entry p i)) v := by
    intro p i z hne
    have h0 : entryAt v.disk (ptr v.disk nd p) i ≠ 0 := hne
    simp only [ensurePtrEntry, run_bind, run_get, ptrBlockEntry_eq hv (h.ptr_lt p), h0, if_false]
    rfl
  have parent : ∀ (p : Ptr) (i : Nat), tree v.disk nd (.entry p i) ≠ 0 → ptr v.disk nd p ≠ 0 := by
    intro p i hne h0
    simp only [tree, h0, entryAt_zero, ne_eq, not_true_eq_false] at hne
  have root : ∀ k, nd.block k ≠ 0 → ensureRootBlock nd k v = .ok nd v := by
    intro k hk
    unfold ensureRootBlock
    rw [if_neg hk]
    rfl
  unfold inodeGetDataBlockEx
  by_cases h12 : logical < 12
  · rw [dataSlot_direct h12, tree_root v.disk nd (by omega)] at hne ⊢
    rw [if_pos h12, if_neg hne]
    rfl
  · rw [if_neg h12]
    by_cases h1024 : logical - 12 < 1024
    · rw [dataSlot_single h12 h1024] at hne ⊢
      rw [if_pos h1024]
      simp only [run_bind, root 12 (parent .single _ hne)]
      exact entry .single _ zero hne
    · rw [dataSlot_double h12 h1024] at hne ⊢
      rw [if_neg h1024, if_neg (by omega)]
      have hout : tree v.disk nd (.entry .double ((logical - 12 - 1024) / 1024)) ≠ 0 :=
        parent (.outer _) _ hne
      simp only [run_bind, root 13 (parent .double _ hout)]
      have hstep := entry .double ((logical - 12 - 1024) / 1024) true hout
      simp only [ptr] at hstep
      rw [hstep]
      exact entry (.outer _) _ zero hne

theorem saveBlock {nd' : Inode} (hm : Mapped ino v nd v1 nd1 logical b true) (hheld : Held v ino nd)
    (hi : ValidIno ino) (hblock : nd'.block = nd1.block) (fits : nd'.Fits) (placed : Buf) :
    Saved ino v nd (putInode (setBlock v1 b placed) ino nd') nd' ∧
      blockAt (putInode (setBlock v1 b placed) ino nd').disk nd' logical = some placed ∧
      ∀ m, m ≠ logical → blockAt (putInode (setBlock v1 b placed) ino nd').disk nd' m =
        blockAt v.disk nd m := by
  have hlow := hm.low
  have hb4 : 4 ≤ b := by omega
  have heff := setBlock_effect hm.ready hb4 placed
  obtain ⟨hfill, htree⟩ := Fill.of_data hm.held heff (setBlock_bits (v := v1) hb4 placed)
    (fun c hc => ⟨logical, hm.here.trans hc.symm⟩) (fun c hc => by omega)
  have hsaved := (hm.toTreeStep.trans hfill.toTreeStep).saved hi hblock fits
  have htree' : tree (putInode (setBlock v1 b placed) ino nd').disk nd' = tree v1.disk nd1 := by
    have hsub : nd'.Sub nd1 := fun k => .inr (congrFun hblock k)
    rw [tree_putInode hfill.ready hi (hfill.held.sub hsub fits), tree_of_block_eq hblock, htree]
  refine ⟨hsaved, ?_, fun m hne => ?_⟩
  · simp only [blockAt, htree', hm.here, hm.nonzero, if_false]
    rw [putInode_disk heff.ready hi hlow, setBlock_same]
  · rw [← hm.blockAt_of_ne hheld hne]
    refine blockAt_congr (by rw [htree']) fun h0 => ?_
    have hl := hm.held.live h0
    rw [putInode_disk heff.ready hi hl.1, setBlock_of_ne]
    intro heq
    exact hne (dataSlot_inj (hm.held.inj h0 (heq.trans hm.here.symm)))

theorem dirSlotInBlock_zeros (need : Nat) : dirSlotInBlock need zeros = some .whole := by
  simp [dirSlotInBlock, scanDirents, parseDirent]

theorem growTo_block (nd : Inode) (logical : Nat) (slot : DirSlot) :
    (growTo nd logical slot).block = nd.block := by
  cases slot <;> simp only [growTo]
  split_ifs <;> rfl

theorem growTo_sameKind (nd : Inode) (logical : Nat) (slot : DirSlot) :
    SameKind nd (growTo nd logical slot) := by
  cases slot <;> simp only [growTo] <;> try exact SameKind.refl nd
  split_ifs
  · exact ⟨rfl, rfl, rfl, rfl⟩
  · exact SameKind.refl nd

theorem growTo_fits (h : nd.Fits) (hl : logical < 1048575) (slot : DirSlot) :
    (growTo nd logical slot).Fits := by
  cases slot <;> simp only [growTo] <;> try exact h
  split_ifs
  · exact { h with size := show (logical + 1) * 4096 < 4294967296 by omega }
  · exact h

structure Added (ino : Nat) (v : Vol) (nd : Inode) (v' : Vol) (nd' : Inode) (logical : Nat)
    (placed : Buf) : Prop extends Saved ino v nd v' nd' where
  kind : SameKind nd nd'
  sub : nd.Sub nd'
  here : blockAt v'.disk nd' logical = some placed
  elsewhere : ∀ m, m ≠ logical → blockAt v'.disk nd' m = blockAt v.disk nd m

def FullBlock (v : Vol) (nd : Inode) (need m : Nat) : Prop :=
  ∃ buf, blockAt v.disk nd m = some buf ∧ dirSlotInBlock need buf = none

def AddedIn (ino : Nat) (v : Vol) (nd : Inode) (v' : Vol) (nd' : Inode) (name : Name)
    (child type first m : Nat) : Prop :=
  ∃ slot placed, dirSlotInBlock (dirRecLen name.length) ((blockAt v.disk nd m).getD zeros) = some slot ∧
    dirPlace ((blockAt v.disk nd m).getD zeros) child name type slot = some placed ∧
    Added ino v nd v' nd' m placed ∧ nd'.size = (growTo nd m slot).size ∧
    (blockAt v.disk nd m ≠ none → nd' = growTo nd m slot) ∧
    ∀ k, first ≤ k → k < m → FullBlock v nd (dirRecLen name.length) k

def HasHole (d : Nat → Buf) (nd : Inode) (n : Nat) : Prop := ∃ m, m < n ∧ blockAt d nd m = none

def AddFails (ino : Nat) (v : Vol) (nd : Inode) (n : Nat) (e : Fail) (v' : Vol) : Prop :=
  (e = .refused ∧ v' = v) ∨ (NoRoom ino v nd e v' ∧ HasHole v.disk nd n)

structure AddStops (ino : Nat) (v : Vol) (nd : Inode) (need n : Nat) (e : Fail) (v' : Vol) :
    Prop where
  fails : AddFails ino v nd n e v'
  unplaced : e = .noBlock → Unplaced ino v nd v'
  broken : e = .refused → ∃ m buf, m < n ∧ blockAt v.disk nd m = some buf ∧
    dirSlotInBlock need buf = some .broken

theorem dirAddHere_post {E : Fail → Vol → Prop} (hm : Mapped ino v nd v1 nd1 logical b true) (hheld : Held v ino nd)
    (hi : ValidIno ino) (hl : logical < 1048575)
    (hbuf : v1.disk b = (blockAt v.disk nd logical).getD zeros) (hattrs : SameAttrs nd nd1)
    (hfail : slot = .broken → E .refused v1) (hsame : blockAt v.disk nd logical ≠ none → nd1 = nd)
    (hslot : dirSlotInBlock (dirRecLen name.length) (v1.disk b) = some slot)
    (hplace : slot ≠ .broken → (dirPlace (v1.disk b) child name type slot).isSome) :
    Post (do
        let placed ← query (fun _ => dirPlace (v1.disk b) child name type slot) Fail.refused
        let dir := growTo nd1 logical slot
        writeBlock b placed
        writeInode ino dir
        pure (dir, true)) v1
      (fun r v' => r.2 = true ∧ AddedIn ino v nd v' r.1 name child type logical logical)
      E := by
  by_cases hbroken : slot = .broken
  · subst hbroken
    refine .seq (.ask (Q := fun _ _ => False) (E := E) ?_ ?_) (fun _ _ hf => hf.elim)
    · intro placed hp
      cases hp
    · exact fun _ => hfail rfl
  · obtain ⟨placed, hp⟩ := isSome_iff_exists.mp (hplace hbroken)
    have hset := (setBlock_effect hm.ready (le_trans (by decide) hm.low) placed).ready
    obtain ⟨hsaved, hhere, helse⟩ := saveBlock hm hheld hi (growTo_block nd1 logical slot)
      (growTo_fits hm.held.fits hl slot) placed
    refine .bind_run (query_run hp) (.bind_run (writeBlock_run hm.ready hm.lt placed)
      (.bind_run (writeInode_run hset hi _) (.ret ⟨rfl, slot, placed, ?_, ?_, ?_, ?_, ?_, ?_⟩)))
    · rw [← hbuf]
      exact hslot
    · rw [← hbuf]
      exact hp
    · refine ⟨hsaved, hattrs.sameKind.trans (growTo_sameKind ..), ?_, hhere, helse⟩
      intro k
      rw [growTo_block]
      exact hm.sub k
    · have hsize := hattrs.size
      cases slot <;> simp only [growTo, hsize]
      split_ifs <;> first | rfl | exact hsize
    · intro hpresent
      rw [hsame hpresent]
    · intro k h1 h2
      omega

theorem parseDirent_bounds (h : parseDirent buf off = some de) :
    off + 8 ≤ 4096 ∧ 8 ≤ de.recLen ∧ off + de.recLen ≤ 4096 ∧ de.nameLen ≤ de.recLen - 8 := by
  simp only [parseDirent] at h
  split_ifs at h with h1 h2
  obtain rfl := Option.some.inj h
  simp only
  omega

theorem scanDirents_eq_some {bad : Nat → β} {visit : Nat → Dirent → Option β} {fuel : Nat} {r : β}
    (h : scanDirents buf bad visit fuel off = some r) : (∃ o, off ≤ o ∧ o < 4096 ∧ r = bad o) ∨
      ∃ o de, off ≤ o ∧ parseDirent buf o = some de ∧ visit o de = some r := by
  induction fuel generalizing off with
  | zero => cases h
  | succ fuel ih =>
    unfold scanDirents at h
    split_ifs at h with hoff
    cases hp : parseDirent buf off with
    | none =>
      rw [hp] at h
      exact .inl ⟨off, le_refl off, hoff, (Option.some.inj h).symm⟩
    | some de =>
      rw [hp] at h
      cases hv : visit off de with
      | some r' =>
        simp only [hv] at h
        exact .inr ⟨off, de, le_refl off, hp, hv.trans h⟩
      | none =>
        simp only [hv] at h
        obtain ⟨o, ho, hlt, hr⟩ | ⟨o, de', ho, hp', hv'⟩ := ih h
        · exact .inl ⟨o, by omega, hlt, hr⟩
        · exact .inr ⟨o, de', by omega, hp', hv'⟩

theorem dirRecLen_le (h : n ≤ 255) : dirRecLen n ≤ 264 := by
  unfold dirRecLen
  omega

theorem dirPlace_isSome (hname : name.length ≤ 255)
    (hslot : dirSlotInBlock (dirRecLen name.length) buf = some slot) (hne : slot ≠ .broken) :
    (dirPlace buf child name type slot).isSome := by
  have hneed := dirRecLen_le hname
  have write : ∀ b off recLen, dirRecLen name.length ≤ recLen → off + recLen ≤ 4096 →
      (dirWriteEntry b off child recLen name type).isSome := by
    intro b off recLen h1 h2
    unfold dirWriteEntry
    rw [if_neg (by omega)]
    rfl
  obtain ⟨o, _, ho, rfl⟩ | ⟨o, de, _, hp, hvisit⟩ := scanDirents_eq_some hslot
  · split_ifs at hne ⊢ with h1 h2
    · exact write _ _ _ (by omega) (by omega)
    · exact write _ _ _ (by omega) (by omega)
    · exact absurd rfl hne
  · obtain ⟨_, _, hend, _⟩ := parseDirent_bounds hp
    split_ifs at hvisit with h1 h2
    · obtain rfl := Option.some.inj hvisit
      exact write _ _ _ h1.2 hend
    · obtain rfl := Option.some.inj hvisit
      exact write _ _ _ (by omega) (by omega)

theorem dirAddInBlocks_post (hname : name.length ≤ 255)
    (hv : Ready v) (h : Held v ino nd) (hi : ValidIno ino) (hl : logical + n ≤ 1048575) :
    Post (dirAddInBlocks ino name child type n logical nd) v
      (fun r v' => (r = (nd, false) ∧ v' = v ∧
          ∀ k, logical ≤ k → k < logical + n → FullBlock v nd (dirRecLen name.length) k) ∨
        (r.2 = true ∧ ∃ m, logical ≤ m ∧ m < logical + n ∧
          AddedIn ino v nd v' r.1 name child type logical m))
      (AddStops ino v nd (dirRecLen name.length) (logical + n)) := by
  induction n generalizing logical with
  | zero => exact .ret (.inl ⟨rfl, rfl, fun k h1 h2 => by omega⟩)
  | succ n ih =>
    have hmax : logical < maxLogical := by unfold maxLogical; omega
    by_cases h0 : tree v.disk nd (dataSlot logical) = 0
    · have hnone : blockAt v.disk nd logical = none := by simp only [blockAt, h0, if_true]
      refine .bind (inodeGetDataBlockEx_post hv h hmax true)
        (fun _ _ he => ⟨.inr ⟨he.noRoom, logical, by omega, hnone⟩, fun _ => he.2.2.1,
          fun hr => nomatch he.1.symm.trans hr⟩) ?_
      rintro ⟨nd1, b⟩ v1 (hm : Maps ino v nd v1 nd1 logical b true)
      have hz : v1.disk b = zeros := hm.clean rfl h0
      have hlt : b < 8192 := hm.lt
      refine .bind_run (query_run (readBlock_of_ready hm.ready hlt)) ?_
      have hslot : dirSlotInBlock (dirRecLen name.length) (v1.disk b) = some .whole := by
        rw [hz]
        exact dirSlotInBlock_zeros _
      simp only [hslot]
      refine (dirAddHere_post hm.toMapped h hi (by omega) (by rw [hnone, hz]; rfl) hm.attrs
        (by simp)
        (fun hpresent => absurd hnone hpresent) hslot
        (dirPlace_isSome hname hslot)).weaken ?_
      rintro r v' ⟨hr, hadd⟩
      exact .inr ⟨hr, logical, le_refl _, by omega, hadd⟩
    · have hm := (Placed.of_present hv h true h0).mapped
      have hsome := blockAt_of_ne h0
      refine .bind_run (getDataBlock_present hv h hmax h0 true) ?_
      refine .bind_run (query_run (readBlock_of_ready hv (h.lt _))) ?_
      cases hslot : dirSlotInBlock (dirRecLen name.length)
          (v.disk (tree v.disk nd (dataSlot logical))) with
      | none =>
        rw [show logical + (n + 1) = logical + 1 + n by omega]
        refine (ih (by omega)).weaken ?_
        have hfull : FullBlock v nd (dirRecLen name.length) logical := ⟨_, hsome, hslot⟩
        have hcons : ∀ m, (∀ k, logical + 1 ≤ k → k < m → FullBlock v nd (dirRecLen name.length) k) →
            ∀ k, logical ≤ k → k < m → FullBlock v nd (dirRecLen name.length) k := by
          intro m hall k h1 h2
          by_cases hk : k = logical
          · exact hk ▸ hfull
          · exact hall k (by omega) h2
        rintro r v' (⟨hr, hv', hall⟩ | ⟨hr, m, h1, h2, slot, placed, h3, h4, h5, h6, h7, h8⟩)
        · exact .inl ⟨hr, hv', hcons _ fun k hk1 hk2 => hall k hk1 (by omega)⟩
        · exact .inr ⟨hr, m, by omega, by omega, slot, placed, h3, h4, h5, h6, h7, hcons m h8⟩
      | some slot =>
        refine (dirAddHere_post hm h hi (by omega) (by rw [hsome]; rfl) rfl
          (fun hbroken => ⟨.inl ⟨rfl, rfl⟩, nofun, fun _ => ⟨logical, _, by omega, hsome, ?_⟩⟩)
          (fun _ => rfl) hslot (dirPlace_isSome hname hslot)).weaken ?_
        · rintro r v' ⟨hr, hadd⟩
          exact .inr ⟨hr, logical, le_refl _, by omega, hadd⟩
        · rw [hslot, hbroken]

def dirBlocks (nd : Inode) : Nat := if inodeBlockCount nd = 0 then 1 else inodeBlockCount nd

theorem dirBlocks_le (nd : Inode) : dirBlocks nd ≤ 1048575 := by
  unfold dirBlocks inodeBlockCount
  split_ifs <;> omega

def Appended (ino : Nat) (v : Vol) (nd : Inode) (v' : Vol) (nd' : Inode) (name : Name)
    (child type : Nat) : Prop :=
  ∃ placed, dirWriteEntry zeros 0 child 4096 name type = some placed ∧ dirBlocks nd < 12 ∧
    Added ino v nd v' nd' (dirBlocks nd) placed ∧ nd'.size = (dirBlocks nd + 1) * 4096 ∧
    ∀ k, k < dirBlocks nd → FullBlock v nd (dirRecLen name.length) k

def EntryAdded (ino : Nat) (v : Vol) (nd : Inode) (v' : Vol) (nd' : Inode) (name : Name)
    (child type : Nat) : Prop :=
  (∃ m, m < dirBlocks nd ∧ AddedIn ino v nd v' nd' name child type 0 m) ∨
    Appended ino v nd v' nd' name child type

theorem EntryAdded.added
    (h : EntryAdded ino v nd v1 nd1 name child type) : ∃ m placed, Added ino v nd v1 nd1 m placed := by
  obtain ⟨m, _, _, placed, _, _, ha, _⟩ | ⟨placed, _, _, ha, _⟩ := h
  · exact ⟨m, placed, ha⟩
  · exact ⟨_, placed, ha⟩

/-- Every failure leaves the names as they were: the volume is unchanged, or blocks
were taken for a hole of the directory. -/
def EntryFails (ino : Nat) (v : Vol) (nd : Inode) (e : Fail) (v' : Vol) : Prop :=
  ((e = .refused ∨ e = .noSlot) ∧ v' = v) ∨ (e = .noBlock ∧ Idle v v' ∧ Full v) ∨
    (NoRoom ino v nd e v' ∧ HasHole v.disk nd (dirBlocks nd))

def AddGivesUp (ino : Nat) (v : Vol) (nd : Inode) (need : Nat) (e : Fail) (v' : Vol) : Prop :=
  (e = .refused ∧ v' = v) ∨
    (e = .noSlot ∧ v' = v ∧ 12 ≤ dirBlocks nd ∧ ∀ k, k < dirBlocks nd → FullBlock v nd need k) ∨
    (e = .noBlock ∧ Full v' ∧ Unplaced ino v nd v')

structure EntryStops (ino : Nat) (v : Vol) (nd : Inode) (name : Name) (e : Fail) (v' : Vol) :
    Prop where
  fails : EntryFails ino v nd e v'
  givesUp : AddGivesUp ino v nd (dirRecLen name.length) e v'
  broken : e = .refused →
    ¬(inodeIsDir nd = true ∧ name ≠ [] ∧ dirFindEntry v nd name = none) ∨
      ∃ m buf, m < dirBlocks nd ∧ blockAt v.disk nd m = some buf ∧
        dirSlotInBlock (dirRecLen name.length) buf = some .broken

theorem dirAddEntry_stops (hname : name.length ≤ 255) (hv : Ready v)
    (h : Held v ino nd) (hi : ValidIno ino) : Post (dirAddEntry ino nd name child type) v
      (fun nd' v' => inodeIsDir nd = true ∧ name ≠ [] ∧ dirFindEntry v nd name = none ∧
        EntryAdded ino v nd v' nd' name child type) (EntryStops ino v nd name) := by
  have hblocks := dirBlocks_le nd
  refine .bind_get (.branch (fun hno => .raise ⟨.inl ⟨.inl rfl, rfl⟩, .inl ⟨rfl, rfl⟩,
    fun _ => .inl fun hpre => ?_⟩) (fun hdir => .branch (fun hno => .raise ⟨.inl ⟨.inl rfl, rfl⟩,
      .inl ⟨rfl, rfl⟩, fun _ => .inl fun hpre => ?_⟩) (fun hfind => ?_)))
  · simp [hpre.1, hpre.2.1] at hno
  · simp [hpre.2.2] at hno
  have hpre : inodeIsDir nd = true ∧ name ≠ [] ∧ dirFindEntry v nd name = none := by
    simp only [not_or, Bool.not_eq_true', Bool.not_eq_false] at hdir
    exact ⟨hdir.1, hdir.2, by simpa using hfind⟩
  change Post (dirAddInBlocks ino name child type (dirBlocks nd) 0 nd >>= _) v _ _
  refine .bind (dirAddInBlocks_post hname hv h hi (by omega)) ?_ ?_
  · rw [Nat.zero_add]
    rintro e v' ⟨⟨he, hv'⟩ | ⟨he, hhole⟩, hun, hbroken⟩
    · exact ⟨.inl ⟨.inl he, hv'⟩, .inl ⟨he, hv'⟩, fun hr => .inr (hbroken hr)⟩
    · exact ⟨.inr (.inr ⟨he, hhole⟩), .inr (.inr ⟨he.1, he.2.1, hun he.1⟩),
        fun hr => .inr (hbroken hr)⟩
  · rintro ⟨nd1, done⟩ v1 (⟨hr, rfl, hfull⟩ | ⟨rfl, m, _, hm, hadd⟩)
    · obtain ⟨rfl, rfl⟩ := Prod.mk.inj hr
      refine .branch (fun hfalse => nomatch hfalse) (fun _ => .branch
        (fun h12 => .raise ⟨.inl ⟨.inr rfl, rfl⟩, .inr (.inl ⟨rfl, rfl, h12, fun k hk =>
          hfull k (Nat.zero_le k) (by omega)⟩), nofun⟩) (fun h12 => ?_))
      have h12 : dirBlocks nd1 < 12 := not_le.mp h12
      refine Post.bind ((inodeGetDataBlockEx_post hv h (by unfold maxLogical; omega) true).and
        (getDirectBlock_post hv nd1 h12 true)) (fun _ _ he => ⟨.inr (.inl he.2),
          .inr (.inr ⟨he.1.1, he.1.2.1, he.1.2.2.1⟩), fun hr => nomatch he.1.1.symm.trans hr⟩) ?_
      rintro ⟨nd2, b⟩ v2 ⟨(hm : Maps ino v1 nd1 v2 nd2 (dirBlocks nd1) b true), _⟩
      obtain ⟨placed, hplaced⟩ : ∃ placed, dirWriteEntry zeros 0 child 4096 name type = some placed := by
        have hneed := dirRecLen_le hname
        unfold dirWriteEntry
        rw [if_neg (by omega)]
        exact ⟨_, rfl⟩
      refine .bind_run (query_run hplaced) (.bind_run (writeBlock_run hm.ready hm.lt placed) ?_)
      have hready := (setBlock_effect hm.ready (le_trans (by decide) hm.low) placed).ready
      have hfits : ({ nd2 with size := (dirBlocks nd1 + 1) * 4096 } : Inode).Fits :=
        { hm.held.fits with size := show (dirBlocks nd1 + 1) * 4096 < 4294967296 by omega }
      have hblock : ({ nd2 with size := (dirBlocks nd1 + 1) * 4096 } : Inode).block = nd2.block := rfl
      obtain ⟨hsaved, hhere, helse⟩ := saveBlock hm.toMapped h hi hblock hfits placed
      refine .bind_run (writeInode_run hready hi _) (.ret ⟨hpre.1, hpre.2.1, hpre.2.2,
        .inr ⟨placed, hplaced, h12, ⟨hsaved, ?_, hm.sub, hhere, helse⟩, rfl, fun k hk => ?_⟩⟩)
      · exact hm.attrs.sameKind.trans ⟨rfl, rfl, rfl, rfl⟩
      · exact hfull k (Nat.zero_le k) (by omega)
    · exact .branch (fun _ => .ret ⟨hpre.1, hpre.2.1, hpre.2.2, .inl ⟨m, by omega, hadd⟩⟩)
        (fun hfalse => absurd rfl hfalse)

theorem dirAddEntry_post (hname : name.length ≤ 255) (hv : Ready v)
    (h : Held v ino nd) (hi : ValidIno ino) : Post (dirAddEntry ino nd name child type) v
      (fun nd' v' => inodeIsDir nd = true ∧ name ≠ [] ∧ dirFindEntry v nd name = none ∧
        EntryAdded ino v nd v' nd' name child type) (EntryFails ino v nd) :=
  (dirAddEntry_stops hname hv h hi).mono (fun _ _ hadd => hadd) fun _ _ he => he.fails

def overContents {β : Type} (blk : Nat → Option Buf) (ended : β) (visit : Nat → Buf → Option β) :
    (n logical : Nat) → β
  | 0, _ => ended
  | n + 1, logical =>
    match blk logical with
    | none => overContents blk ended visit n (logical + 1)
    | some buf =>
      match visit logical buf with
      | some r => r
      | none => overContents blk ended visit n (logical + 1)

theorem overBlocks_eq (hv : Ready v) (hlt : ∀ s, tree v.disk nd s < 8192) {failed ended : β}
    {visit : Nat → Buf → Option β} (hl : logical + n ≤ maxLogical) :
    overBlocks v nd failed ended visit n logical = overContents (blockAt v.disk nd) ended
        (fun m buf => visit (tree v.disk nd (dataSlot m)) buf) n logical := by
  induction n generalizing logical with
  | zero => rfl
  | succ n ih =>
    unfold overBlocks overContents
    rw [inodeFindDataBlock_eq hv hlt (by omega)]
    by_cases h0 : tree v.disk nd (dataSlot logical) = 0
    · simp only [blockAt, h0, if_true]
      exact ih (by omega)
    · simp only [blockAt, h0, if_false, readBlock_of_ready hv (hlt _)]
      cases visit (tree v.disk nd (dataSlot logical)) (v.disk (tree v.disk nd (dataSlot logical))) with
      | some r => rfl
      | none => exact ih (by omega)

theorem overContents_cases (blk : Nat → Option Buf) (ended : β)
    (visit : Nat → Buf → Option β) (n logical : Nat) :
    (overContents blk ended visit n logical = ended ∧ ∀ m buf, logical ≤ m → m < logical + n →
        blk m = some buf → visit m buf = none) ∨
      ∃ m buf, logical ≤ m ∧ m < logical + n ∧ blk m = some buf ∧
        visit m buf = some (overContents blk ended visit n logical) ∧
        ∀ k buf', logical ≤ k → k < m → blk k = some buf' → visit k buf' = none := by
  induction n generalizing logical with
  | zero => exact .inl ⟨rfl, fun m buf h1 h2 => by omega⟩
  | succ n ih =>
    have hnext : overContents blk ended visit (n + 1) logical =
        ((blk logical).bind (visit logical)).getD (overContents blk ended visit n (logical + 1)) := by
      rw [overContents]
      cases blk logical with
      | none => rfl
      | some buf => cases hv : visit logical buf <;> simp [hv]
    rw [hnext]
    cases hfirst : (blk logical).bind (visit logical) with
    | some r =>
      obtain ⟨buf, hb, hr⟩ := bind_eq_some_iff.mp hfirst
      exact .inr ⟨logical, buf, le_rfl, by omega, hb, hr, fun k _ h1 h2 => by omega⟩
    | none =>
      -- the block at `logical` says nothing: the rest decides
      have hrest := bind_eq_none_iff.mp hfirst
      obtain ⟨hend, hall⟩ | ⟨m, buf, h1, h2, hb, hv, hall⟩ := ih (logical + 1)
      · refine .inl ⟨hend, fun m buf h1 h2 => ?_⟩
        obtain rfl | hlt := Nat.eq_or_lt_of_le h1
        · exact hrest buf
        · exact hall m buf hlt (by omega)
      · refine .inr ⟨m, buf, by omega, by omega, hb, hv, fun k buf' h1 h2 => ?_⟩
        obtain rfl | hlt := Nat.eq_or_lt_of_le h1
        · exact hrest buf'
        · exact hall k buf' hlt h2

theorem scanDirents_map (f : β → γ) {bad : Nat → β}
    {visit : Nat → Dirent → Option β} (fuel off : Nat) :
    scanDirents buf (fun o => f (bad o)) (fun o de => (visit o de).map f) fuel off =
      (scanDirents buf bad visit fuel off).map f := by
  induction fuel generalizing off with
  | zero => rfl
  | succ fuel ih =>
    unfold scanDirents
    split_ifs
    · cases parseDirent buf off with
      | none => rfl
      | some de =>
        simp only
        cases visit off de with
        | none => exact ih _
        | some r => rfl
    · rfl

theorem overContents_map (f : β → γ) (blk : Nat → Option Buf) (ended : β)
    (visit : Nat → Buf → Option β) (n logical : Nat) :
    overContents blk (f ended) (fun m buf => (visit m buf).map f) n logical =
      f (overContents blk ended visit n logical) := by
  induction n generalizing logical with
  | zero => rfl
  | succ n ih =>
    unfold overContents
    cases blk logical with
    | none => exact ih _
    | some buf =>
      simp only
      cases visit logical buf with
      | none => exact ih _
      | some r => rfl

def matchInBlock (name : Name) (buf : Buf) : Option (Option (Nat × Dirent)) :=
  scanDirents buf (fun _ => none)
    (fun off de => if de.inode ≠ 0 ∧ nameEquals de name then some (some (off, de)) else none) 512 0

def dirMatch (blk : Nat → Option Buf) (name : Name) (n : Nat) : Option (Nat × Nat × Dirent) :=
  overContents blk none (fun m buf => (matchInBlock name buf).map (Option.map fun r => (m, r))) n 0

theorem dirFindInBlock_eq (name : Name) (buf : Buf) : dirFindInBlock name buf =
      (matchInBlock name buf).map (Option.map fun r => (r.2.inode, r.2.fileType)) := by
  unfold dirFindInBlock matchInBlock
  rw [← scanDirents_map]
  congr 1
  funext o de
  split_ifs <;> rfl

theorem dirLocateInBlock_eq (name : Name) (b : Nat) (buf : Buf) :
    dirLocateInBlock name b buf = (matchInBlock name buf).map (Option.map fun r => (b, r.1)) := by
  unfold dirLocateInBlock matchInBlock
  rw [← scanDirents_map]
  congr 1
  funext o de
  split_ifs <;> rfl

theorem dirFindEntry_eq (hv : Ready v) (hlt : ∀ s, tree v.disk nd s < 8192) (name : Name) :
    dirFindEntry v nd name = if inodeIsDir nd then
      (dirMatch (blockAt v.disk nd) name (inodeBlockCount nd)).map
        fun r => (r.2.2.inode, r.2.2.fileType) else none := by
  have hcount := inodeBlockCount_lt nd
  unfold dirFindEntry dirMatch
  rw [overBlocks_eq hv hlt (by omega), ← overContents_map (Option.map _)]
  simp only [dirFindInBlock_eq, map_map, Function.comp_def, map_none]

theorem dirLocate_eq (hv : Ready v) (hlt : ∀ s, tree v.disk nd s < 8192) (name : Name) :
    dirLocate v nd name = if inodeIsDir nd then
      (dirMatch (blockAt v.disk nd) name (inodeBlockCount nd)).map
        fun r => (tree v.disk nd (dataSlot r.1), r.2.1) else none := by
  have hcount := inodeBlockCount_lt nd
  unfold dirLocate dirMatch
  rw [overBlocks_eq hv hlt (by omega), ← overContents_map (Option.map _)]
  simp only [dirLocateInBlock_eq, map_map, Function.comp_def, map_none]

theorem dirMatch_eq_some {blk : Nat → Option Buf} (h : dirMatch blk name n = some (m, off, de)) :
    m < n ∧ ∃ buf, blk m = some buf ∧ matchInBlock name buf = some (some (off, de)) ∧
      ∀ k buf', k < m → blk k = some buf' → matchInBlock name buf' = none := by
  obtain ⟨hend, _⟩ | ⟨m', buf, _, hm, hblk, hvisit, hall⟩ := overContents_cases blk none
    (fun m buf => (matchInBlock name buf).map (Option.map fun r => (m, r))) n 0
  · cases h.symm.trans hend
  · rw [show overContents blk none _ n 0 = some (m, off, de) from h] at hvisit
    cases hmatch : matchInBlock name buf with
    | none =>
      rw [hmatch] at hvisit
      cases hvisit
    | some r =>
      rw [hmatch] at hvisit
      obtain ⟨r', hr', heq⟩ := map_eq_some_iff.mp (Option.some.inj hvisit)
      obtain ⟨rfl, rfl⟩ := Prod.mk.inj heq
      refine ⟨by omega, buf, hblk, by rw [hmatch, hr'], fun k buf' hk hb => ?_⟩
      exact map_eq_none_iff.mp (hall k buf' (Nat.zero_le k) hk hb)

def EntryRemoved (ino : Nat) (v : Vol) (nd : Inode) (v' : Vol) (name : Name) : Prop :=
  ∃ m off de buf, dirMatch (blockAt v.disk nd) name (inodeBlockCount nd) = some (m, off, de) ∧
    blockAt v.disk nd m = some buf ∧ Added ino v nd v' nd m (writeU32 buf off 0)

def clearEntry (v : Vol) (ino : Nat) (nd : Inode) (b off : Nat) : Vol :=
  putInode (setBlock v b (writeU32 (v.disk b) off 0)) ino nd

theorem clearEntry_effect (hv : Ready v) (hi : ValidIno ino) (nd : Inode) (hb : 36 ≤ b)
    (off : Nat) : Effect v (clearEntry v ino nd b off) (fun c => c = b ∨ c < 36) := by
  have hset := setBlock_effect hv (show 4 ≤ b by omega) (writeU32 (v.disk b) off 0)
  exact (hset.mono fun _ h => .inl h).trans ((putInode_effect hset.ready hi nd).mono fun _ h => .inr h)

theorem clearEntry_bits (v : Vol) (hi : ValidIno ino) (nd : Inode) (hb : 36 ≤ b) (off : Nat) :
    SameBits v (clearEntry v ino nd b off) :=
  (setBlock_bits (show 4 ≤ b by omega) _).trans (putInode_bits hi nd)

theorem clearEntry_disk (hv : Ready v) (hi : ValidIno ino) {c : Nat} (hb : 36 ≤ b) (hc : 36 ≤ c)
    (off : Nat) : (clearEntry v ino nd b off).disk c =
      if c = b then writeU32 (v.disk b) off 0 else v.disk c := by
  have hset := setBlock_effect hv (show 4 ≤ b by omega) (writeU32 (v.disk b) off 0)
  rw [clearEntry, putInode_disk hset.ready hi hc]
  split_ifs with h
  · rw [h, setBlock_same]
  · exact setBlock_of_ne h

theorem table_clearEntry (v : Vol) (hi : ValidIno ino) (fits : nd.Fits) (hb : 36 ≤ b)
    (off : Nat) : table (clearEntry v ino nd b off) = Function.update (table v) ino nd := by
  rw [clearEntry, table_putInode_of_fits _ hi fits]
  congr 1
  exact table_congr fun c _ hc => setBlock_of_ne (by omega)

theorem dirRemoveEntry_run (hv : Ready v)
    (hloc : dirLocate v nd name = some (b, off)) (hb : 4 ≤ b) (hlt : b < 8192) (hi : ValidIno ino) :
    dirRemoveEntry ino nd name v = .ok () (clearEntry v ino nd b off) := by
  have hwrite := writeBlock_run hv hlt (writeU32 (v.disk b) off 0)
  simp only [dirRemoveEntry, run_bind, query, hloc, readBlock_of_ready hv hlt, hwrite]
  exact writeInode_run (setBlock_effect hv hb _).ready hi nd

theorem EntryRemoved.of_match (hv : Ready v) (h : Held v ino nd) (hi : ValidIno ino)
    (hmatch : dirMatch (blockAt v.disk nd) name (inodeBlockCount nd) = some (m, off, de)) :
    EntryRemoved ino v nd (clearEntry v ino nd (tree v.disk nd (dataSlot m)) off) name ∧
      tree v.disk nd (dataSlot m) ≠ 0 := by
  obtain ⟨_, buf, hblk, _, _⟩ := dirMatch_eq_some hmatch
  obtain ⟨hne, hdisk⟩ := blockAt_eq_some hblk
  have hm' := (Placed.of_present hv h true hne).mapped
  obtain ⟨hsaved, hhere, helse⟩ := saveBlock hm' h hi rfl h.fits (writeU32 buf off 0)
  refine ⟨⟨m, off, de, buf, hmatch, hblk, ?_⟩, hne⟩
  rw [clearEntry, hdisk]
  exact ⟨hsaved, SameKind.refl nd, fun _ => .inr rfl, hhere, helse⟩

theorem dirRemoveEntry_post (hv : Ready v) (h : Held v ino nd) (hi : ValidIno ino) :
    Post (dirRemoveEntry ino nd name) v
      (fun _ v' => inodeIsDir nd = true ∧ EntryRemoved ino v nd v' name)
      (fun e v' => e = .refused ∧ v' = v ∧ dirLocate v nd name = none) := by
  cases hloc : dirLocate v nd name with
  | none =>
    refine .bind (R := fun _ _ => False) (.ask (fun r hr => ?_) fun _ => ⟨rfl, rfl, rfl⟩)
      (fun _ _ he => he) fun _ _ hf => hf.elim
    rw [hloc] at hr
    cases hr
  | some r =>
    have hloc' := hloc
    rw [dirLocate_eq hv h.lt] at hloc
    split_ifs at hloc with hdir
    obtain ⟨⟨m, off, de⟩, hmatch, rfl⟩ := map_eq_some_iff.mp hloc
    obtain ⟨hremoved, hne⟩ := EntryRemoved.of_match hv h hi hmatch
    have hlow := (h.live hne).1
    exact .of_run (dirRemoveEntry_run hv hloc' (le_trans (by decide) hlow) (h.lt _) hi)
      ⟨hdir, hremoved⟩

end

end SmallOS.Ext2
