import SmallOS.Ext2.Creation
import SmallOS.Ext2.Records

/-! How the search of a directory block ends, and the number of blocks of a directory. -/

namespace SmallOS.Ext2

open Bytes Prog List Option

def Record.Misses (r : Record) (name : Name) : Prop := r.inode = 0 ∨ r.name ≠ name

section

variable {de : Dirent} {name : Name} {rs : List Record}

theorem misses_iff (hname : name.length ≤ 255) :
    ¬ (de.inode ≠ 0 ∧ nameEquals de name = true) ↔ de.record.Misses name := by
  rw [nameEquals_eq hname, decide_eq_true_iff, not_and_or, not_not]
  rfl

theorem misses_live (h : ∀ r ∈ rs, r.Misses name) : ∀ e ∈ live rs, e.name ≠ name := by
  intro e he
  obtain ⟨r, hr, hre⟩ := mem_filterMap.mp he
  unfold Record.entry at hre
  split_ifs at hre with h0
  obtain rfl := some.inj hre
  exact (h r hr).resolve_left h0

theorem matchInBlock_ends (hname : name.length ≤ 255) (buf : Buf) :
    ∃ rs o, Chain buf 0 rs o ∧ (∀ r ∈ rs, r.Misses name) ∧
      ((o = 4096 ∧ matchInBlock name buf = none) ∨
        (o < 4096 ∧ recordAt buf o = none ∧ matchInBlock name buf = some none) ∨
        ∃ de, o < 4096 ∧ parseDirent buf o = some de ∧ ¬ de.record.Misses name ∧
          matchInBlock name buf = some (some (o, de))) := by
  have hscan : scanDirents buf (fun _ => none) (fun off de =>
      if de.inode ≠ 0 ∧ nameEquals de name then some (some (off, de)) else none) 512 0 =
      matchInBlock name buf := rfl
  obtain ⟨rs, o, hchain, hall, hend⟩ := scanDirents_ends (Q := (Record.Misses · name))
    (Nat.zero_le 4096) (by decide) (fun o de hnone => (misses_iff hname).mp fun hhit => by
      rw [if_pos hhit] at hnone
      cases hnone) hscan
  refine ⟨rs, o, hchain, hall, ?_⟩
  obtain ⟨ho, hres⟩ | ⟨ho, hp, hres⟩ | ⟨de, ho, hp, hvisit, hne⟩ := hend
  · exact .inl ⟨ho, hres⟩
  · exact .inr (.inl ⟨ho, recordAt_eq_none.mpr hp, hres⟩)
  · refine .inr (.inr ⟨de, ho, hp, ?_, ?_⟩)
    · rw [← misses_iff hname, not_not]
      by_contra hno
      rw [if_neg hno] at hvisit
      exact hne hvisit.symm
    · split_ifs at hvisit with hhit
      · exact hvisit.symm
      · exact absurd hvisit.symm hne

end

theorem inodeBlockCount_congr {nd nd' : Inode} (h : nd'.size = nd.size) :
    inodeBlockCount nd' = inodeBlockCount nd := by
  rw [inodeBlockCount, inodeBlockCount, h]

theorem growTo_count {nd : Inode} {m : Nat} (hm : m < inodeBlockCount nd) (slot : DirSlot) :
    inodeBlockCount (growTo nd m slot) = inodeBlockCount nd := by
  cases slot with
  | whole =>
    simp only [growTo]
    split_ifs with h
    · unfold inodeBlockCount at hm ⊢
      simp only
      omega
    · rfl
  | tail => rfl
  | reuse => rfl
  | split => rfl
  | broken => rfl

end SmallOS.Ext2
