import SmallOS.Exec.Bounds

/-! Replacing the program of a process. The new image is mapped over a new page directory but into
the area list of the running process, which is cleared first. -/

namespace SmallOS.Exec

open Bytes Prog Ranges Vm Option Space

def processMaxArgs : Nat := 64
def processArgBytes : Nat := 1536
def processMaxEnvs : Nat := 32
def processEnvBytes : Nat := 1024
def processAuxvMax : Nat := 16
def maxLoadFileBytes : Nat := 4 * 1024 * 1024

def File.image (f : File) : Image :=
  ⟨f.size, ⟨fun i => if i < f.size then f.bytes i else 0⟩⟩

def vfsLoadFileOwned (fs : Files) (path : Path) : L Image :=
  match fs path with
  | none => throw ()
  | some f =>
    if f.size = 0 ∨ maxLoadFileBytes < f.size then throw ()
    else do
      onSpace allocate
      pure (File.image f)

def processStringArenaEnsure (present : Bool) : L Unit :=
  if present then pure () else onSpace allocate

def stringBytes (strings : List Path) : Nat := (strings.map (·.length + 1)).sum

def processSetArgs (argv : List Path) : L Unit := do
  if processMaxArgs < argv.length then throw ()
  else if processArgBytes < stringBytes argv then throw ()
  else
    if argv ≠ [] then
      processStringArenaEnsure (← get).process.argArena
      modify fun s => { s with process := { s.process with argArena := true } }
    modify fun s => { s with process := { s.process with args := argv } }

def processSetEnv (envp : List Path) : L Unit := do
  if processMaxEnvs < envp.length then throw ()
  else if processEnvBytes < stringBytes envp then throw ()
  else
    if envp ≠ [] then
      processStringArenaEnsure (← get).process.envArena
      modify fun s => { s with process := { s.process with envArena := true } }
    modify fun s => { s with process := { s.process with env := envp } }

def processSetAuxv (auxv : List (Nat × Nat)) : L Unit :=
  if processAuxvMax < auxv.length then throw ()
  else modify fun s => { s with process := { s.process with auxv := auxv } }

def below (sp n : Nat) : Nat := wrap (sp + 2 ^ 32 - n)

def pushStrings (fs : Files) : List Path → Nat → L (Nat × List Nat)
  | [], sp => pure (sp, [])
  | str :: rest, sp => do
    let (sp, ptrs) ← pushStrings fs rest sp
    let sp := below sp (str.length + 1)
    elfCopyToUser fs sp (ofList (str ++ [0])) none (str.length + 1)
    pure (sp, sp :: ptrs)

def wordsBuf (words : List Nat) : Buf := ⟨fun i => UInt8.ofNat (words.getD (i / 4) 0 / 256 ^ (i % 4))⟩

def pushWords (fs : Files) (sp : Nat) (words : List Nat) : L Nat := do
  let sp := below sp (4 * words.length)
  elfCopyToUser fs sp (wordsBuf words) none (4 * words.length)
  pure sp

def elfSetupUserStack (fs : Files) (argv envp : List Path) (auxv : List (Nat × Nat)) : L Nat := do
  if processMaxArgs < argv.length ∨ processMaxEnvs < envp.length ∨
      processAuxvMax < auxv.length then throw ()
  else
    let (sp, envPtrs) ← pushStrings fs envp userStackTop
    let (sp, argPtrs) ← pushStrings fs argv sp
    let userEnvp ← pushWords fs (sp / 4 * 4) (envPtrs ++ [0])
    let userArgv ← pushWords fs userEnvp (argPtrs ++ [0])
    let userAuxv := below userArgv (8 * auxv.length + 8)
    let pairs := auxv.flatMap fun (type, value) => [type, value]
    if 0 < auxv.length then
      elfCopyToUser fs userAuxv (wordsBuf pairs) none (8 * auxv.length)
    elfCopyToUser fs (wrap (userAuxv + 8 * auxv.length)) (wordsBuf [0, 0]) none 8
    pushWords fs userAuxv [0, argv.length, userArgv, userEnvp, userAuxv]

def elfMainLoadBase (type : Nat) (interp : Option Path) : Nat :=
  if type = etDyn ∧ interp.isSome then userPieBase else 0

def elfValidateMainLayout (type : Nat) (main : MapInfo) (interp : Option Path) : Bool :=
  decide (¬(type = etDyn ∧ interp.isNone) ∧
    ¬(interp.isSome ∧ main.low < userInterpBase ∧ userMmapBase < main.high) ∧
    ¬(interp.isSome ∧ userHeapBase < main.high))

def elfValidateInterpLayout (main interp : MapInfo) : Bool :=
  decide (¬(interp.low < userInterpBase ∨ userHeapBase < interp.high) ∧
    ¬(interp.low < main.high ∧ main.low < interp.high))

def atPhdr : Nat := 3
def atPhent : Nat := 4
def atPhnum : Nat := 5
def atPagesz : Nat := 6
def atBase : Nat := 7
def atEntry : Nat := 9

/-- Map the interpreter, if the program names one: the entry point and the auxiliary vector. -/
def mapInterp (fs : Files) (main : MapInfo) : Option Path → L (Nat × List (Nat × Nat))
  | none => pure (main.entry, [])
  | some path => do
    let img ← vfsLoadFileOwned fs path
    let info ← elfMapImageIntoProcess fs img (some path) userInterpBase
    if !elfValidateInterpLayout main info then throw ()
    else pure (info.entry, [(atPhdr, main.phdr), (atPhent, main.phent), (atPhnum, main.phnum),
      (atEntry, main.entry), (atBase, info.loadBase), (atPagesz, pageSize)])

def stackArea : Area where
  start := userStackTop - userStackSize
  stop := userStackTop
  prot := protRead ||| protWrite
  maxProt := protRead ||| protWrite
  kind := .stack
  flags := 0
  fileStart := 0
  fileEnd := 0
  fileOffset := 0
  fileSize := 0
  path := []

def buildProgram (fs : Files) (img : Image) (path : Option Path) (type : Nat)
    (interp : Option Path) (argv envp : List Path) : L (Nat × Nat) := do
  let main ← elfMapImageIntoProcess fs img path (elfMainLoadBase type interp)
  if !elfValidateMainLayout type main interp then throw ()
  else
    let (entry, auxv) ← mapInterp fs main interp
    onSpace (processVmAdd stackArea)
    processSetArgs argv
    processSetEnv envp
    processSetAuxv auxv
    let esp ← elfSetupUserStack fs argv envp auxv
    pure (entry, esp)

def setPages (pages : Nat → Option Page) : L Unit :=
  modify fun s => s.setSpace { s.space with pages := pages }

/-- The result is the entry point and the stack pointer. Without a frame for a page directory the
machine stops. -/
def elfExecImageInto (fs : Files) (img : Image) (path : Option Path) (argv envp : List Path) :
    L (Nat × Nat) := do
  if !(← elfValidHeader img) then throw ()
  else if processMaxArgs < argv.length then throw ()
  else if processMaxEnvs < envp.length then throw ()
  else
    let interp ← elfCopyInterpPath img
    let type ← half img 16
    if type = etDyn ∧ interp.isNone then throw ()
    else
      let old := (← get).space.pages
      setPages fun _ => none
      onSpace processVmClear
      let (entry, esp) ← tryCatch (buildProgram fs img path type interp argv envp) fun _ => do
        setPages old
        onSpace processVmClear
        throw ()
      modify fun s => { s with process := { s.process with
        userEntry := entry
        userStackEsp := esp
        heapBase := userHeapBase
        heapBrk := userHeapBase
        mmapBase := userMmapBase
        mmapNext := userMmapBase } }
      pure (entry, esp)

def elfSuffix : Path := [46, 101, 108, 102]

def loadNamed (fs : Files) (name : Path) : L (Image × Path) :=
  tryCatch (do return (← vfsLoadFileOwned fs name, name)) fun _ =>
    if name.contains 46 then throw ()
    else if 40 ≤ name.length + 4 then throw ()
    else do return (← vfsLoadFileOwned fs (name ++ elfSuffix), name ++ elfSuffix)

/-- The last part of a path, without `.elf`, cut to the length of `name`. -/
def elfSetProcessNameFromPath (path : Path) : L Unit :=
  let base := ((path.reverse.takeWhile (· != 47)).reverse).take 31
  let name := if 4 < base.length ∧ base.drop (base.length - 4) = elfSuffix then
    base.take (base.length - 4) else base
  modify fun s => { s with process := { s.process with name := name } }

def elfExecNamedInto (fs : Files) (name : Path) (argv envp : List Path) : L (Nat × Nat) := do
  let (img, path) ← loadNamed fs name
  let result ← elfExecImageInto fs img (some path) argv envp
  elfSetProcessNameFromPath path
  pure result

/-- What a failed exec may do to the process besides its memory: the new strings may be in
place already, and an arena for them or a new auxiliary vector. -/
structure Framed (argv envp : List Path) (s s' : Loader) : Prop where
  fds : s'.process.fds = s.process.fds
  heapBase : s'.process.heapBase = s.process.heapBase
  heapBrk : s'.process.heapBrk = s.process.heapBrk
  args : s'.process.args = s.process.args ∨ s'.process.args = argv
  env : s'.process.env = s.process.env ∨ s'.process.env = envp

section Framed

variable {argv envp : List Path}

instance : Std.Refl (Framed argv envp) := ⟨fun _ => ⟨rfl, rfl, rfl, .inl rfl, .inl rfl⟩⟩

instance : IsTrans Loader (Framed argv envp) := by
  refine ⟨fun s t u h k => ⟨k.fds.trans h.fds, k.heapBase.trans h.heapBase,
    k.heapBrk.trans h.heapBrk, ?_, ?_⟩⟩
  · rcases k.args with same | new
    · rw [same]
      exact h.args
    · exact .inr new
  · rcases k.env with same | new
    · rw [same]
      exact h.env
    · exact .inr new

theorem SameSpace.framed {s s' : Loader} (h : SameSpace s s') : Framed argv envp s s' := by
  refine ⟨?_, ?_, ?_, .inl ?_, .inl ?_⟩ <;> rw [h.process]

theorem setSpace_framed (s : Loader) (space : Space) : Framed argv envp s (s.setSpace space) :=
  ⟨rfl, rfl, rfl, .inl rfl, .inl rfl⟩

theorem onSpace_framed {α : Type} (x : M α) : Within (Framed argv envp) (onSpace x) := by
  intro s
  refine (onSpace_post (.any x s.space)).mono ?_ ?_
  · rintro a _ ⟨space, rfl, -⟩
    exact setSpace_framed s space
  · rintro e _ ⟨space, rfl, -⟩
    exact setSpace_framed s space

theorem userPage_framed (fs : Files) (addr : Nat) :
    Within (Framed argv envp) (userPage fs addr) := by
  refine .read fun _ => ?_
  split
  on_goal 1 => refine (onSpace_framed _).bind fun _ => ?_
  all_goals
    refine .read fun t => ?_
    cases t.space.pages (pageFloor addr) with
    | none => exact .raise ()
    | some p => exact .ret p

theorem noteSource_framed (image : Option Nat) (copied chunk : Nat) :
    Within (Framed argv envp) (noteSource image copied chunk) := by
  cases image with
  | none => exact .ret ()
  | some offset => exact .assign fun s => ⟨rfl, rfl, rfl, .inl rfl, .inl rfl⟩

theorem elfCopyToUser_framed (fs : Files) (va : Nat) (src : Buf) (image : Option Nat)
    (len : Nat) : Within (Framed argv envp) (elfCopyToUser fs va src image len) := by
  have chunks : ∀ rounds copied,
      Within (Framed argv envp) (copyChunks fs va src image len rounds copied) := by
    intro rounds
    induction rounds with
    | zero => exact fun _ => .ret ()
    | succ n ih =>
      intro copied
      refine .branch (fun _ => ?_) fun _ => .ret ()
      exact (userPage_framed fs _).bind fun p => (noteSource_framed _ _ _).bind fun _ =>
        .bind (.assign fun _ => ⟨rfl, rfl, rfl, .inl rfl, .inl rfl⟩) fun _ => ih _
  exact chunks len 0

theorem elfMapImage_framed (fs : Files) (img : Image) (path : Option Path) (dynBase : Nat) :
    Within (Framed argv envp) (elfMapImageIntoProcess fs img path dynBase) := by
  intro s
  have place (g : Segment) : Within (Framed argv envp) (placeSegment fs img path img.type g) := by
    refine (onSpace_framed _).bind fun _ => ?_
    cases path with
    | some _ => exact .ret ()
    | none => exact (onSpace_framed _).bind fun _ => elfCopyToUser_framed _ _ _ _ _
  refine elfMapImageIntoProcess_post (I := fun _ s' => Framed argv envp s s')
    (fun _ t u h same => IsTrans.trans _ _ _ h same.framed) (fun _ _ h => h) ?_
    (Std.Refl.refl s)
  intro n _ g _ t h _ _
  exact (place g).onward h

theorem vfsLoadFileOwned_framed (fs : Files) (path : Path) :
    Within (Framed argv envp) (vfsLoadFileOwned fs path) := by
  unfold vfsLoadFileOwned
  cases fs path with
  | none => exact .raise ()
  | some f =>
    refine .guard () fun _ => ?_
    exact (onSpace_framed _).bind fun _ => .ret _

theorem mapInterp_framed (fs : Files) (main : MapInfo) (interp : Option Path) :
    Within (Framed argv envp) (mapInterp fs main interp) := by
  cases interp with
  | none => exact .ret _
  | some path =>
    refine (vfsLoadFileOwned_framed fs path).bind fun img => ?_
    refine (elfMapImage_framed fs img (some path) userInterpBase).bind fun info => ?_
    exact .guard () fun _ => .ret _

theorem processStringArenaEnsure_framed (present : Bool) :
    Within (Framed argv envp) (processStringArenaEnsure present) :=
  .branch (fun _ => .ret ()) fun _ => onSpace_framed _

theorem processSetArgs_framed : Within (Framed argv envp) (processSetArgs argv) := by
  have store : Within (Framed argv envp)
      (modify fun s => { s with process := { s.process with args := argv } } : L Unit) :=
    .assign fun s => ⟨rfl, rfl, rfl, .inr rfl, .inl rfl⟩
  refine .guard () fun _ => ?_
  refine .guard () fun _ => ?_
  split
  · refine .read fun t => (processStringArenaEnsure_framed _).bind fun _ => ?_
    exact (Within.assign fun s => ⟨rfl, rfl, rfl, .inl rfl, .inl rfl⟩).bind fun _ => store
  · exact store

theorem processSetEnv_framed : Within (Framed argv envp) (processSetEnv envp) := by
  have store : Within (Framed argv envp)
      (modify fun s => { s with process := { s.process with env := envp } } : L Unit) :=
    .assign fun s => ⟨rfl, rfl, rfl, .inl rfl, .inr rfl⟩
  refine .guard () fun _ => ?_
  refine .guard () fun _ => ?_
  split
  · refine .read fun t => (processStringArenaEnsure_framed _).bind fun _ => ?_
    exact (Within.assign fun s => ⟨rfl, rfl, rfl, .inl rfl, .inl rfl⟩).bind fun _ => store
  · exact store

theorem pushStrings_framed (fs : Files) (strings : List Path) (sp : Nat) :
    Within (Framed argv envp) (pushStrings fs strings sp) := by
  induction strings with
  | nil => exact .ret _
  | cons str rest ih =>
    exact ih.bind fun _ => (elfCopyToUser_framed _ _ _ _ _).bind fun _ => .ret _

theorem pushWords_framed (fs : Files) (sp : Nat) (words : List Nat) :
    Within (Framed argv envp) (pushWords fs sp words) :=
  (elfCopyToUser_framed _ _ _ _ _).bind fun _ => .ret _

theorem elfSetupUserStack_framed (fs : Files) (args env : List Path) (auxv : List (Nat × Nat)) :
    Within (Framed argv envp) (elfSetupUserStack fs args env auxv) := by
  refine .guard () fun _ => ?_
  refine (pushStrings_framed fs env _).bind fun _ => (pushStrings_framed fs args _).bind fun _ => ?_
  refine (pushWords_framed fs _ _).bind fun _ => (pushWords_framed fs _ _).bind fun _ => ?_
  have last (userAuxv : Nat) (frame : List Nat) : Within (Framed argv envp)
      (elfCopyToUser fs (wrap (userAuxv + 8 * auxv.length)) (wordsBuf [0, 0]) none 8 >>= fun _ =>
        pushWords fs userAuxv frame) :=
    (elfCopyToUser_framed _ _ _ _ _).bind fun _ => pushWords_framed _ _ _
  refine .branch (fun _ => ?_) fun _ => last _ _
  exact (elfCopyToUser_framed _ _ _ _ _).bind fun _ => last _ _

theorem buildProgram_framed (fs : Files) (img : Image) (path : Option Path) (type : Nat)
    (interp : Option Path) :
    Within (Framed argv envp) (buildProgram fs img path type interp argv envp) := by
  refine (elfMapImage_framed fs img path _).bind fun main => ?_
  refine .guard () fun _ => ?_
  refine (mapInterp_framed fs main interp).bind fun (entry, auxv) => ?_
  refine (onSpace_framed _).bind fun _ => processSetArgs_framed.bind fun _ => ?_
  refine processSetEnv_framed.bind fun _ => ?_
  have setAuxv : Within (Framed argv envp) (processSetAuxv auxv) :=
    .guard () fun _ =>
      .assign fun s => ⟨rfl, rfl, rfl, .inl rfl, .inl rfl⟩
  exact setAuxv.bind fun _ => (elfSetupUserStack_framed fs argv envp auxv).bind fun _ =>
    .ret _

end Framed

theorem onSpace_clear_post (argv envp : List Path) (s : Loader) {E : Unit → Loader → Prop} :
    Post (onSpace processVmClear) s (fun _ s' => s'.space.areas = [] ∧
      s'.space.pages = s.space.pages ∧ Framed argv envp s s') E := by
  refine (onSpace_post (processVmClear_post s.space (E := fun _ _ => False))).mono ?_ ?_
  · rintro u _ ⟨space, rfl, areas, pages⟩
    exact ⟨areas, pages, setSpace_framed s space⟩
  · rintro e _ ⟨space, -, h⟩
    exact h.elim

/-- The process is as it was, as far as a program that goes on running can tell. -/
structure Intact (p p' : Process) : Prop where
  areas : p'.space.areas = p.space.areas
  pages : p'.space.pages = p.space.pages
  heapBase : p'.heapBase = p.heapBase
  heapBrk : p'.heapBrk = p.heapBrk
  args : p'.args = p.args
  env : p'.env = p.env
  fds : p'.fds = p.fds

def Image.Refused (img : Image) (argv envp : List Path) : Prop :=
  img.valid = false ∨ processMaxArgs < argv.length ∨ processMaxEnvs < envp.length ∨
    (img.type = etDyn ∧ img.interp = none)

theorem elfExecImageInto_post (fs : Files) (img : Image) (path : Option Path)
    (argv envp : List Path) (s : Loader) :
    Post (elfExecImageInto fs img path argv envp) s (fun _ _ => True) (fun _ s' =>
      (img.Refused argv envp ∧ SameSpace s s') ∨ (¬img.Refused argv envp ∧
        s'.space.areas = [] ∧ s'.space.pages = s.space.pages ∧ Framed argv envp s s')) := by
  refine .seq (elfValidHeader_post img s) ?_
  rintro _ s1 ⟨rfl, same1⟩
  refine Post.branch (fun bad => Post.raise (.inl ⟨.inl (by simpa using bad), same1⟩))
    fun valid => ?_
  refine .branch (fun many => .raise (.inl ⟨.inr (.inl many), same1⟩)) fun args => ?_
  refine .branch (fun many => .raise (.inl ⟨.inr (.inr (.inl many)), same1⟩))
    fun env => ?_
  refine .seq (elfCopyInterpPath_post img s1) ?_
  rintro _ s2 ⟨rfl, same2⟩
  refine (same1.trans same2).half fun s3 same3 => ?_
  refine .branch (fun dyn => .raise (.inl ⟨?_, same3⟩)) fun loadable => ?_
  · exact .inr (.inr (.inr ⟨dyn.1, isNone_iff_eq_none.mp dyn.2⟩))
  have accepted : ¬img.Refused argv envp := by
    rintro (bad | many | many | ⟨dyn, none⟩)
    · exact valid (by simpa using bad)
    · exact args many
    · exact env many
    · exact loadable ⟨dyn, isNone_iff_eq_none.mpr none⟩
  refine .bind_get (.bind_assign ?_)
  refine .seq (onSpace_clear_post argv envp _) ?_
  rintro u s4 ⟨-, -, framed4⟩
  have framed4 : Framed argv envp s s4 := IsTrans.trans _ _ _
    (IsTrans.trans _ _ _ same3.framed (setSpace_framed s3 _)) framed4
  refine .seq (.rescue (Q := fun _ _ => True) (F := fun _ s' => Framed argv envp s s')
    ?_ ?_) fun _ _ _ => trivial
  · exact ((buildProgram_framed fs img path _ _).onward framed4).weaken fun _ _ _ => trivial
  · intro _ s5 framed5
    refine .bind_assign (.seq (onSpace_clear_post argv envp _) ?_)
    rintro u s6 ⟨areas, pages, framed6⟩
    refine .raise (.inr ⟨accepted, areas, ?_, ?_⟩)
    · rw [pages, ← same3.space]
      rfl
    · exact IsTrans.trans _ _ _ framed5 (IsTrans.trans _ _ _ (setSpace_framed s5 _) framed6)

def Loaned (s s' : Loader) : Prop := ∃ space, s' = s.setSpace space ∧ Kept s.space space

instance : Std.Refl Loaned := ⟨fun s => ⟨s.space, rfl, Kept.refl _⟩⟩

instance : IsTrans Loader Loaned := by
  refine ⟨?_⟩
  rintro s _ _ ⟨space, rfl, kept⟩ ⟨space', rfl, kept'⟩
  exact ⟨space', rfl, kept.trans kept'⟩

theorem vfsLoadFileOwned_loaned (fs : Files) (path : Path) :
    Within Loaned (vfsLoadFileOwned fs path) := by
  have allocated : Within Loaned (onSpace allocate) := by
    intro s
    refine (onSpace_post (allocate_post s.space)).mono ?_ ?_
    · rintro u _ ⟨space, rfl, kept, -⟩
      exact ⟨space, rfl, kept⟩
    · rintro e _ ⟨space, rfl, kept⟩
      exact ⟨space, rfl, kept⟩
  unfold vfsLoadFileOwned
  cases fs path with
  | none => exact .raise ()
  | some f =>
    refine .guard () fun _ => ?_
    exact allocated.bind fun _ => .ret _

theorem loadNamed_loaned (fs : Files) (name : Path) : Within Loaned (loadNamed fs name) := by
  have load (path : Path) : Within Loaned
      (do return (← vfsLoadFileOwned fs path, path) : L (Image × Path)) :=
    (vfsLoadFileOwned_loaned fs path).bind fun _ => .ret _
  have retry : Within Loaned (if name.contains 46 then throw ()
      else if 40 ≤ name.length + 4 then throw ()
      else do return (← vfsLoadFileOwned fs (name ++ elfSuffix), name ++ elfSuffix) :
        L (Image × Path)) :=
    .guard () fun _ =>
      .guard () fun _ => load _
  intro s
  refine .rescue (load name s) fun e s1 h => ?_
  exact retry.onward h

inductive Program where
  | image (img : Image) (path : Option Path)
  | named (name : Path)

def Program.exec (fs : Files) (argv envp : List Path) : Program → L (Nat × Nat)
  | .image img path => elfExecImageInto fs img path argv envp
  | .named name => elfExecNamedInto fs name argv envp

/-- The program is turned down before the process is touched. A name for which there is no
file to load is. -/
def Program.Refused (fs : Files) (argv envp : List Path) (s : Loader) : Program → Prop
  | .image img _ => img.Refused argv envp
  | .named name => ∀ img path s₁, loadNamed fs name s = .ok (img, path) s₁ →
      img.Refused argv envp

theorem Program.exec_post (fs : Files) (argv envp : List Path) (program : Program) (s : Loader) :
    Post (program.exec fs argv envp) s (fun _ _ => True) (fun _ s' =>
      (program.Refused fs argv envp s ∧ Intact s.process s'.process) ∨
      (¬program.Refused fs argv envp s ∧ s'.space.areas = [] ∧
        s'.space.pages = s.space.pages ∧ Framed argv envp s s')) := by
  cases program with
  | image img path =>
    refine (elfExecImageInto_post fs img path argv envp s).mono (fun _ _ h => h) ?_
    rintro e s' (⟨refused, same⟩ | lost)
    · refine .inl ⟨refused, ?_⟩
      rw [same.process]
      exact ⟨rfl, rfl, rfl, rfl, rfl, rfl, rfl⟩
    · exact .inr lost
  | named name =>
    have loaned := loadNamed_loaned fs name s
    cases run : loadNamed fs name s with
    | error e s1 =>
      obtain ⟨space, rfl, kept⟩ := loaned.of_error run
      refine .bind (R := fun _ _ => False) (F := fun _ t => t = s.setSpace space) ?_ ?_
        (fun _ _ h => h.elim)
      · simp only [Post, run]
      · rintro e _ rfl
        refine .inl ⟨fun img path s1 ok => ?_, kept.areas, kept.pages, rfl, rfl, rfl, rfl, rfl⟩
        rw [run] at ok
        cases ok
    | ok r s1 =>
      obtain ⟨img, path⟩ := r
      obtain ⟨space, rfl, kept⟩ := loaned.of_ok run
      have refused_iff : (Program.named name).Refused fs argv envp s ↔ img.Refused argv envp := by
        refine ⟨fun h => h img path _ run, fun h img' path' s' ok => ?_⟩
        rw [run] at ok
        cases ok
        exact h
      refine .bind_run run (.bind (elfExecImageInto_post fs img (some path) argv envp _)
        ?_ fun _ _ _ => trivial)
      rintro e s' (⟨refused, same⟩ | ⟨accepted, areas, pages, framed⟩)
      · refine .inl ⟨refused_iff.mpr refused, ?_⟩
        rw [same.process]
        exact ⟨kept.areas, kept.pages, rfl, rfl, rfl, rfl, rfl⟩
      · exact .inr ⟨fun h => accepted (refused_iff.mp h), areas, pages.trans kept.pages,
          IsTrans.trans _ _ _ (setSpace_framed s space) framed⟩

/-- A process with memory survives a failed exec just if the program is turned down before
the area list is cleared. Without memory the strings of an accepted program are all that can be lost. -/
theorem failed_exec_intact (fs : Files) (argv envp : List Path) (program : Program)
    (s s' : Loader) (failed : program.exec fs argv envp s = .error () s') : (s.space.areas ≠ [] →
      (Intact s.process s'.process ↔ program.Refused fs argv envp s)) ∧
    (s.space.areas = [] → program.Refused fs argv envp s ∨
      (argv = s.process.args ∧ envp = s.process.env) → Intact s.process s'.process) := by
  rcases (program.exec_post fs argv envp s).of_error failed with
    ⟨refused, intact⟩ | ⟨accepted, areas, pages, framed⟩
  · exact ⟨fun _ => ⟨fun _ => refused, fun _ => intact⟩, fun _ _ => intact⟩
  refine ⟨fun memory => ⟨fun intact => ?_, fun refused => absurd refused accepted⟩, ?_⟩
  · exact absurd (intact.areas.symm.trans areas) memory
  · rintro empty (refused | ⟨rfl, rfl⟩)
    · exact absurd refused accepted
    exact ⟨areas.trans empty.symm, pages, framed.heapBase, framed.heapBrk,
      framed.args.elim id id, framed.env.elim id id, framed.fds⟩

def heapLoader : Loader := ⟨{ blankProcess with space := heapSpace 0 }, [], []⟩

theorem failed_exec_intact_no_file :
    ∃ s', (Program.named [98]).exec tinyFiles [] [] heapLoader = .error () s' ∧
      Intact heapLoader.process s'.process := by
  have hfail : (failure ((Program.named [98]).exec tinyFiles [] [] heapLoader)).isSome := by
    decide
  obtain ⟨⟨e, s'⟩, hrun⟩ := isSome_iff_exists.mp hfail
  have hrun := eq_error_of_failure hrun
  have hload : (success (loadNamed tinyFiles [98] heapLoader)).isNone := by decide
  refine ⟨s', hrun, ((failed_exec_intact tinyFiles [] [] (.named [98]) heapLoader s' hrun).1
    (List.cons_ne_nil _ _)).mpr fun img path s₁ ok => ?_⟩
  rw [ok] at hload
  cases hload

/-- The header of `cutImage` is accepted, but there is no segment to map. -/
theorem cut_image_loses_areas :
    ∃ s', (Program.image cutImage (some [97])).exec tinyFiles [] [] heapLoader = .error () s' ∧
      ¬Intact heapLoader.process s'.process := by
  have hfail : (failure ((Program.image cutImage (some [97])).exec tinyFiles [] []
      heapLoader)).any (fun r => r.2.space.areas.isEmpty) := by decide
  obtain ⟨⟨e, s'⟩, hrun, hempty⟩ := (any_eq_true _ _).mp hfail
  refine ⟨s', eq_error_of_failure hrun, fun intact => ?_⟩
  have areas := intact.areas
  replace hempty : s'.process.space.areas = [] := List.isEmpty_iff.mp hempty
  rw [hempty] at areas
  cases areas

end SmallOS.Exec
