import SmallOS.Vm.AreaMap

/-! Page faults. A page that is not present is filled from the file behind its area, as a shared
read-only page or as a private copy; outside the file part of the area it is zero. -/

namespace SmallOS.Vm
open Bytes Prog Ranges Function Area

variable {a : Area} {b : Buf} {x : Nat}

structure File where
  size : Nat
  bytes : Buf
  size_lt : size < 2 ^ 32

abbrev Files := Path → Option File

def vfsReadPathAt (fs : Files) (path : Path) (offset len : Nat) : Option (Nat × Buf) :=
  (fs path).map fun f => (min len (f.size - offset), f.bytes.shift offset)

def File.page (f : File) (offset : Nat) : Buf :=
  ⟨fun i => if offset + i < f.size then f.bytes (offset + i) else 0⟩

/-- The page comes from the cache or from a new frame, which may not be had. -/
def vfsFileMapRoPagePath (fs : Files) (path : Path) (offset : Nat) : M Buf :=
  if offset % pageSize ≠ 0 then throw ()
  else match fs path with
    | none => throw ()
    | some f =>
      if f.size ≤ offset then throw ()
      else do
        allocate
        pure (f.page offset)

/-- The contents of a zeroed frame after the file part of the page has been read. -/
def processVmLoadFilePage (fs : Files) (area : Area) (page : Nat) : Option Buf :=
  if area.path = [] then none
  else if area.fileEnd ≤ page ∨ page + pageSize ≤ area.fileStart then some zeros
  else
    let copyStart := max area.fileStart page
    let copyEnd := min area.fileEnd (page + pageSize)
    if copyEnd ≤ copyStart then some zeros
    else
      match vfsReadPathAt fs area.path (wrap (area.fileOffset + (copyStart - area.fileStart)))
        (copyEnd - copyStart) with
      | none => none
      | some (read, data) =>
        if read = copyEnd - copyStart then
          some ⟨fun i => if copyStart ≤ page + i ∧ page + i < copyEnd then
            data (page + i - copyStart) else 0⟩
        else none

def pagingMapPage (page : Nat) (p : Page) : M Unit :=
  modify fun s => { s with pages := update s.pages page (some p) }

def pagingResolveCowFault (page : Nat) : M Unit := do
  match (← get).pages page with
  | none => throw ()
  | some p =>
    if !p.cow || p.write then throw ()
    else
      if p.shared then allocate
      pagingMapPage page { p with write := true, cow := false, sharedRo := false, shared := false }

def pageFloor (addr : Nat) : Nat := addr / pageSize * pageSize

def Area.sharesPage (a : Area) (page : Nat) : Prop :=
  a.kind.backed ∧ a.path ≠ [] ∧ !a.maxProt.writable ∧ !a.prot.writable ∧ a.fileStart ≤ page ∧
    page + pageSize ≤ a.fileEnd

instance (a : Area) (page : Nat) : Decidable (a.sharesPage page) :=
  inferInstanceAs (Decidable (_ ∧ _))

def sharedPage (fs : Files) (area : Area) (page : Nat) : M (Option Buf) :=
  if area.sharesPage page then
    tryCatch (some <$> vfsFileMapRoPagePath fs area.path
      (wrap (area.fileOffset + (page - area.fileStart)))) fun _ => pure none
  else pure none

def privatePage (fs : Files) (area : Area) (page : Nat) : Option Buf :=
  if area.kind.backed then processVmLoadFilePage fs area page else some zeros

def processVmHandleFault (fs : Files) (addr : Nat) (present write : Bool) : M Unit := do
  let s ← get
  match find s.areas (pageFloor addr) with
  | none => throw ()
  | some area =>
    if write ∧ !area.prot.writable then throw ()
    else if !write ∧ area.prot &&& protAll = 0 then throw ()
    else if present then
      if !write then throw ()
      else pagingResolveCowFault (pageFloor addr)
    else if (s.pages (pageFloor addr)).isSome then throw ()
    else
      match ← sharedPage fs area (pageFloor addr) with
      | some bytes => pagingMapPage (pageFloor addr) ⟨false, false, true, true, bytes⟩
      | none =>
        allocate
        match privatePage fs area (pageFloor addr) with
        | none => throw ()
        | some bytes =>
          pagingMapPage (pageFloor addr) ⟨area.prot.writable,
            !area.prot.writable && area.maxProt.writable, false, false, bytes⟩

def processVmFaultInPage (fs : Files) (addr : Nat) (write : Bool) : M Unit := do
  match (← get).pages (pageFloor addr) with
  | none => processVmHandleFault fs addr false write
  | some p =>
    if !write then pure ()
    else if p.write then pure ()
    else processVmHandleFault fs addr true write

def fileByte (fs : Files) (path : Path) (offset : Nat) : UInt8 :=
  match fs path with
  | none => 0
  | some f => if offset < f.size then f.bytes offset else 0

/-- Where the byte at the address `x` of an area comes from, if from a file. -/
def Area.source (a : Area) (x : Nat) : Option (Path × Nat) :=
  if a.kind.backed ∧ a.fileStart ≤ x ∧ x < a.fileEnd then
    some (a.path, wrap (a.fileOffset + (x - a.fileStart)))
  else none

/-- `b` is the byte that a source stands for, and the source is in the file or in the rest
of its last page. -/
def Supplies (fs : Files) (b : UInt8) : Option (Path × Nat) → Prop
  | none => b = 0
  | some (path, offset) => ∃ f, fs path = some f ∧ offset / pageSize * pageSize < f.size ∧
    b = fileByte fs path offset

def Loaded (fs : Files) (a : Area) (page : Nat) (b : Buf) : Prop :=
  ∀ i < pageSize, Supplies fs (b i) (a.source (page + i))

theorem Area.source_inside (backed : a.kind.backed) (h : a.fileStart ≤ x ∧ x < a.fileEnd) :
    a.source x = some (a.path, wrap (a.fileOffset + (x - a.fileStart))) := by
  rw [source, if_pos ⟨backed, h⟩]

theorem Area.source_outside (h : ¬(a.fileStart ≤ x ∧ x < a.fileEnd)) : a.source x = none := by
  rw [source, if_neg]
  tauto

variable {f : File} {fs : Files}

theorem Supplies.of_file {path : Path} {offset : Nat}
    (hf : fs path = some f) (h : offset / pageSize * pageSize < f.size) :
    Supplies fs (if offset < f.size then f.bytes offset else 0) (some (path, offset)) :=
  ⟨f, hf, h, by rw [fileByte, hf]⟩

theorem processVmLoadFilePage_loaded {page : Nat}
    (backed : a.kind.backed) (h : processVmLoadFilePage fs a page = some b) :
    Loaded fs a page b := by
  intro i hi
  unfold processVmLoadFilePage at h
  by_cases hpath : a.path = []
  · rw [if_pos hpath] at h
    cases h
  rw [if_neg hpath] at h
  by_cases hout : a.fileEnd ≤ page ∨ page + pageSize ≤ a.fileStart
  · rw [if_pos hout] at h
    obtain rfl : zeros = b := Option.some.inj h
    rw [source_outside (by omega)]
    rfl
  rw [if_neg hout] at h
  by_cases hempty : min a.fileEnd (page + pageSize) ≤ max a.fileStart page
  · rw [if_pos hempty] at h
    obtain rfl : zeros = b := Option.some.inj h
    rw [source_outside (by omega)]
    rfl
  rw [if_neg hempty] at h
  cases hf : fs a.path with
  | none => simp [vfsReadPathAt, hf] at h
  | some f =>
    simp only [vfsReadPathAt, hf, Option.map_some] at h
    split at h
    · rename_i hread
      obtain rfl := Option.some.inj h
      have hsize := f.size_lt
      by_cases hin : a.fileStart ≤ page + i ∧ page + i < a.fileEnd
      · -- the offset does not wrap before the end of the file
        have hcopy : max a.fileStart page ≤ page + i ∧
            page + i < min a.fileEnd (page + pageSize) := by omega
        have hoff : wrap (a.fileOffset + (page + i - a.fileStart)) =
            wrap (a.fileOffset + (max a.fileStart page - a.fileStart)) +
              (page + i - max a.fileStart page) := by
          unfold wrap at hread ⊢
          omega
        have hlt : wrap (a.fileOffset + (page + i - a.fileStart)) < f.size := by omega
        have supplies := Supplies.of_file hf ((Nat.div_mul_le_self _ pageSize).trans_lt hlt)
        rw [if_pos hlt, hoff] at supplies
        rw [source_inside backed hin, hoff]
        simpa only [hcopy, and_self, if_true, Buf.shift] using supplies
      · rw [source_outside hin]
        simp only
        rw [if_neg (by omega)]
        rfl
    · cases h

theorem File.page_loaded {page : Nat} (hf : fs a.path = some f) (shares : a.sharesPage page)
    (aligned : wrap (a.fileOffset + (page - a.fileStart)) % pageSize = 0)
    (inside : wrap (a.fileOffset + (page - a.fileStart)) < f.size) :
    Loaded fs a page (f.page (wrap (a.fileOffset + (page - a.fileStart)))) := by
  obtain ⟨backed, -, -, -, lower, upper⟩ := shares
  intro i hi
  have hoff : wrap (a.fileOffset + (page + i - a.fileStart)) =
      wrap (a.fileOffset + (page - a.fileStart)) + i := by
    unfold wrap pageSize at *
    omega
  rw [source_inside backed ⟨by omega, by omega⟩, hoff]
  refine Supplies.of_file hf ?_
  have hfloor : (wrap (a.fileOffset + (page - a.fileStart)) + i) / pageSize * pageSize =
      wrap (a.fileOffset + (page - a.fileStart)) := by
    unfold pageSize at *
    omega
  rw [hfloor]
  exact inside

theorem sharedPage_post (fs : Files) (a : Area) (page : Nat) (s : Space) :
    Post (sharedPage fs a page) s (fun r s' => Kept s s' ∧ ∀ b, r = some b → Loaded fs a page b)
      (fun _ _ => False) := by
  refine .branch (fun shares => ?_) fun _ => .ret ⟨Kept.refl s, by rintro b ⟨⟩⟩
  refine .rescue (F := fun _ s' => Kept s s') ?_ ?_
  · refine .bind (R := fun b s' => Kept s s' ∧ Loaded fs a page b)
      (F := fun _ s' => Kept s s') ?_ (fun _ _ h => h) ?_
    · unfold vfsFileMapRoPagePath
      refine .guard (Kept.refl s) fun aligned => ?_
      cases hf : fs a.path with
      | none => exact .raise (Kept.refl s)
      | some f =>
        refine .guard (Kept.refl s) fun inside => ?_
        refine .seq (allocate_post s) ?_
        rintro u s' ⟨kept, -⟩
        exact .ret ⟨kept, File.page_loaded hf shares (not_not.mp aligned) (not_le.mp inside)⟩
    · rintro b s' ⟨kept, loaded⟩
      refine .ret ⟨kept, ?_⟩
      rintro c ⟨⟩
      exact loaded
  · intro e s' kept
    exact .ret ⟨kept, by rintro b ⟨⟩⟩

theorem privatePage_loaded {page : Nat}
    (h : privatePage fs a page = some b) : Loaded fs a page b := by
  unfold privatePage at h
  split at h
  · rename_i backed
    exact processVmLoadFilePage_loaded backed h
  · rename_i anonymous
    obtain rfl := Option.some.inj h
    intro i _
    rw [source, if_neg (by tauto)]
    rfl

theorem pagingMapPage_post {s s1 : Space} (kept : Kept s s1) (page : Nat) (p : Page)
    {E : Unit → Space → Prop} : Post (pagingMapPage page p) s1
      (fun _ s' => s'.areas = s.areas ∧ s'.pages = update s.pages page (some p)) E := by
  refine .assign ⟨kept.areas, ?_⟩
  rw [kept.pages]

theorem pagingResolveCowFault_post (page : Nat) (s : Space) : Post (pagingResolveCowFault page) s
      (fun _ s' => ∃ p q, s.pages page = some p ∧ q.bytes = p.bytes ∧ s'.areas = s.areas ∧
        s'.pages = update s.pages page (some q)) (fun _ s' => Kept s s') := by
  refine .bind_get ?_
  cases hpage : s.pages page with
  | none => exact .raise (Kept.refl s)
  | some p =>
    refine .guard (Kept.refl s) fun _ => ?_
    have map : ∀ s', Kept s s' → Post (pagingMapPage page
        { p with write := true, cow := false, sharedRo := false, shared := false }) s'
        (fun _ s' => ∃ p' q, some p = some p' ∧ q.bytes = p'.bytes ∧ s'.areas = s.areas ∧
          s'.pages = update s.pages page (some q)) (fun _ s' => Kept s s') := by
      intro s' kept
      refine (pagingMapPage_post kept page _).weaken ?_
      rintro u s'' ⟨areas, pages⟩
      exact ⟨p, ⟨true, false, false, false, p.bytes⟩, rfl, rfl, areas, pages⟩
    by_cases shared : p.shared
    · rw [if_pos shared]
      refine .seq (allocate_post s) ?_
      rintro u s' ⟨kept, -⟩
      exact map s' kept
    · rw [if_neg shared]
      exact map s (Kept.refl s)

/-- What a handled fault leaves: a page of an area, loaded if there was none, with no more rights
than the area. -/
structure Handled (fs : Files) (present : Bool) (page : Nat) (a : Area) (p : Page) (s s' : Space) :
    Prop where
  found : find s.areas page = some a
  areas : s'.areas = s.areas
  pages : s'.pages = update s.pages page (some p)
  used : a.prot ≠ 0
  right : p.write = true → a.prot.writable = true
  loaded : present = false → s.pages page = none ∧ Loaded fs a page p.bytes
  resolved : present = true → ∃ old, s.pages page = some old ∧ p.bytes = old.bytes

theorem processVmHandleFault_post (fs : Files) (addr : Nat) (present write : Bool) (s : Space) :
    Post (processVmHandleFault fs addr present write) s
      (fun _ s' => ∃ a p, Handled fs present (pageFloor addr) a p s s')
      (fun _ s' => Kept s s') := by
  refine .bind_get ?_
  cases hfind : find s.areas (pageFloor addr) with
  | none => exact .raise (Kept.refl s)
  | some a =>
    refine .guard (Kept.refl s) fun writable => ?_
    refine .guard (Kept.refl s) fun readable => ?_
    have used : a.prot ≠ 0 := by
      intro hzero
      rw [hzero] at writable readable
      revert writable readable
      cases write <;> decide
    refine .branch (fun hp => ?_) fun hp => ?_
    · refine .guard (Kept.refl s) fun store => ?_
      have right : a.prot.writable = true := by simp_all
      refine (pagingResolveCowFault_post (pageFloor addr) s).weaken ?_
      rintro u s' ⟨old, q, hold, bytes, areas, pages⟩
      exact ⟨a, q, hfind, areas, pages, used, fun _ => right,
        fun h => absurd (hp.symm.trans h) (by decide), fun _ => ⟨old, hold, bytes⟩⟩
    refine .guard (Kept.refl s) fun absent => ?_
    have absent : s.pages (pageFloor addr) = none := by simpa using absent
    refine .bind (sharedPage_post fs a (pageFloor addr) s) (fun _ _ h => h.elim) ?_
    rintro r s1 ⟨kept, loaded⟩
    cases r with
    | some b =>
      refine (pagingMapPage_post kept _ _).weaken ?_
      rintro u s' ⟨areas, pages⟩
      exact ⟨a, _, hfind, areas, pages, used, fun h => absurd h Bool.false_ne_true,
        fun _ => ⟨absent, loaded b rfl⟩, fun h => absurd h hp⟩
    | none =>
      refine .bind (allocate_post s1) (fun _ _ h => kept.trans h) ?_
      rintro u s2 ⟨kept2, -⟩
      cases hpage : privatePage fs a (pageFloor addr) with
      | none => exact .raise (kept.trans kept2)
      | some b =>
        refine (pagingMapPage_post (kept.trans kept2) _ _).weaken ?_
        rintro u s' ⟨areas, pages⟩
        exact ⟨a, ⟨_, _, _, _, b⟩, hfind, areas, pages, used, id,
          fun _ => ⟨absent, privatePage_loaded hpage⟩, fun h => absurd h hp⟩

end SmallOS.Vm
