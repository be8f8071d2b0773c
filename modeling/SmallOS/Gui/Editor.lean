import SmallOS.Lib.Prog
import Mathlib.Data.List.ReduceOption
import Mathlib.Data.List.TakeWhile

/-! Loading and saving of the text editor. A line is the list of the bytes of its buffer, which
has room for 255 of them before the terminator. -/

namespace SmallOS.Editor
open List Nat Prog

abbrev Line := List UInt8

/-- The line goes behind the others, up to its first NUL; `alloc` says whether there is memory
for it. -/
def insertLine (alloc : Nat → Bool) (lines : List Line) (text : Line) : Option (List Line) :=
  if alloc lines.length then some (lines ++ [(text.takeWhile (· ≠ 0)).take 255]) else none

structure Loader where
  lines : List Line
  line : Line

def loadByte (alloc : Nat → Bool) (l : Loader) (c : UInt8) : Option Loader :=
  if c = 13 then some l
  else if c = 10 then (insertLine alloc l.lines l.line).map fun lines => ⟨lines, []⟩
  else some (if l.line.length + 1 < 256 then { l with line := l.line ++ [c] } else l)

def loadChunks (alloc : Nat → Bool) : List (Option (List UInt8)) → Loader → Option Loader
  | [], l => some l
  | none :: _, _ => none
  | some chunk :: reads, l => (chunk.foldlM (loadByte alloc) l).bind (loadChunks alloc reads)

def loadEnd (alloc : Nat → Bool) (l : Loader) : Option (List Line) :=
  if l.line = [] then some l.lines else insertLine alloc l.lines l.line

/-- What the system answers: `stat` says whether the path is a directory, or fails, and `reads` are
the reads up to the one that returns nothing. -/
structure Source where
  path : List UInt8
  stat : Option Bool
  opened : Bool
  reads : List (Option (List UInt8))

def Source.text (f : Source) : List UInt8 := f.reads.reduceOption.flatten

def editorModelLoad (alloc : Nat → Bool) (f : Source) : Option (List Line) :=
  if f.path = [] then none
  else match f.stat with
    | none => some []
    | some isDir =>
      if isDir || !f.opened then none
      else (loadChunks alloc f.reads ⟨[], []⟩).bind (loadEnd alloc)

/-- `write` says whether the write at an offset of the new file is complete. -/
def saveLines (write : Nat → Bool) : (lines : List Line) → (out : List UInt8) → Option (List UInt8)
  | [], out => some out
  | line :: lines, out =>
    if (line ≠ [] ∧ !write out.length) ∨ !write (out.length + line.length) then none
    else saveLines write lines (out ++ line ++ [10])

def editorModelSave (path : List UInt8) (opened : Bool) (write : Nat → Bool) (fsync : Bool)
    (lines : List Line) : Option (List UInt8) :=
  if path = [] ∨ !opened then none
  else (saveLines write lines []).bind fun out => if fsync then some out else none

def textLines : (text : List UInt8) → (line : Line) → List Line
  | [], line => if line = [] then [] else [line]
  | c :: text, line => if c = 10 then line :: textLines text [] else textLines text (line ++ [c])

def endNewline (text : List UInt8) : List UInt8 :=
  if text = [] ∨ text.getLast? = some 10 then text else text ++ [10]

variable {alloc : Nat → Bool} {lines : List Line} {text : List UInt8}

theorem insertLine_eq (done : List Line) {line : Line} (hnul : 0 ∉ line) :
    insertLine alloc done (line.take 255) =
      if alloc done.length then some (done ++ [line.take 255]) else none := by
  have hall : ∀ c ∈ line.take 255, decide (c ≠ 0) = true := fun c hc =>
    decide_eq_true fun h0 => hnul (h0 ▸ mem_of_mem_take hc)
  rw [insertLine, takeWhile_eq_self_iff.mpr hall, take_take]
  rfl

theorem load_text (done : List Line) (line : Line) (hcr : 13 ∉ text) (hnul : 0 ∉ line ++ text)
    (h : (text.foldlM (loadByte alloc) ⟨done, line.take 255⟩).bind (loadEnd alloc) = some lines) :
    lines = done ++ (textLines text line).map (take 255) := by
  induction text generalizing done line with
  | nil =>
    have hnil : line.take 255 = [] ↔ line = [] := by simp
    rw [append_nil] at hnul
    grind [loadEnd, insertLine_eq, textLines]
  | cons c text ih =>
    obtain ⟨hc, hcr⟩ := not_or.mp (mt mem_cons.mpr hcr)
    rw [foldlM_cons, loadByte, if_neg (Ne.symm hc)] at h
    rw [textLines]
    have hrest : 0 ∉ (line ++ [c]) ++ text := by rwa [append_assoc]
    split_ifs at h ⊢ with hnl hroom
    · rw [insertLine_eq _ fun h0 => hnul (mem_append_left _ h0)] at h
      split_ifs at h
      · rw [ih _ [] hcr (fun h0 => hrest (mem_append_right _ h0)) h, map_cons, append_assoc]
        rfl
      · cases h
    · have hlong : (line ++ [c]).take 255 = line.take 255 ++ [c] := by
        rw [length_take] at hroom
        rw [take_of_length_le (l := line) (by omega), take_of_length_le]
        rw [length_append, length_singleton]
        omega
      exact ih _ _ hcr hrest (by rw [hlong]; exact h)
    · have hfull : (line ++ [c]).take 255 = line.take 255 := by
        rw [length_take] at hroom
        exact take_append_of_le_length (by omega)
      exact ih _ _ hcr hrest (by rw [hfull]; exact h)

theorem loadChunks_eq {reads l l'} (h : loadChunks alloc reads l = some l') :
    reads.reduceOption.flatten.foldlM (loadByte alloc) l = some l' := by
  induction reads generalizing l with
  | nil => exact h
  | cons r reads ih =>
    cases r with
    | none => cases h
    | some chunk =>
      obtain ⟨m, hm, h⟩ := Option.bind_eq_some_iff.mp h
      rw [reduceOption_cons_of_some, flatten_cons, foldlM_append, hm]
      exact ih h

theorem saveLines_eq {write out out'} (h : saveLines write lines out = some out') :
    out' = out ++ lines.flatMap (· ++ [10]) := by
  induction lines generalizing out with
  | nil => exact (Option.some.inj h).symm.trans (append_nil out).symm
  | cons line lines ih =>
    rw [saveLines] at h
    split_ifs at h
    rw [ih h, flatMap_cons, append_assoc, append_assoc, append_assoc]

theorem textLines_joined {line} (hline : 10 ∉ line) :
    (textLines text line).flatMap (· ++ [10]) = endNewline (line ++ text) := by
  induction text generalizing line with
  | nil =>
    grind [textLines, endNewline]
  | cons c text ih =>
    rw [textLines]
    split_ifs with hc
    · subst hc
      rw [flatMap_cons, ih not_mem_nil]
      grind [endNewline]
    · rw [ih (by grind), append_assoc]
      rfl

theorem textLines_ne_nil {line : Line} (h : line ++ text ≠ []) : textLines text line ≠ [] := by
  induction text generalizing line with
  | nil => simpa [textLines] using h
  | cons c text ih =>
    rw [textLines]
    split_ifs
    · exact cons_ne_nil _ _
    · exact ih (by simp)

theorem load_lines {f : Source} (hload : editorModelLoad alloc f = some lines)
    (hnul : 0 ∉ f.text) (hcr : 13 ∉ f.text) :
    lines = textLines f.text [] ↔
      (f.stat = none → f.text = []) ∧ ∀ line ∈ textLines f.text [], line.length < 256 := by
  unfold editorModelLoad at hload
  split_ifs at hload
  cases hstat : f.stat with
  | none =>
    obtain rfl : [] = lines := by simpa [hstat] using hload
    refine ⟨fun h => ?_, fun ⟨h, _⟩ => by rw [h rfl]; rfl⟩
    have hnil : f.text = [] := by
      by_contra hne
      exact textLines_ne_nil hne h.symm
    rw [hnil]
    exact ⟨fun _ => rfl, fun _ h => nomatch h⟩
  | some isDir =>
    simp only [hstat] at hload
    split_ifs at hload
    obtain ⟨l, hchunks, hend⟩ := Option.bind_eq_some_iff.mp hload
    have hall : (f.text.foldlM (loadByte alloc) ⟨[], []⟩).bind (loadEnd alloc) = some lines := by
      rw [Source.text, loadChunks_eq hchunks]
      exact hend
    rw [load_text [] [] hcr hnul hall, nil_append]
    refine ⟨fun h => ⟨nofun, fun line hline => ?_⟩, fun ⟨_, h⟩ => ?_⟩
    · rw [← h] at hline
      obtain ⟨line, -, rfl⟩ := mem_map.mp hline
      rw [length_take]
      omega
    · exact (map_congr_left fun line hline => take_of_length_le (le_of_lt_succ (h line hline))).trans
        (map_id _)

/-- A file comes back from a load and a save just if it could be looked at, or is empty, and its
lines fit in their buffers. -/
theorem load_save_exact (alloc : Nat → Bool) (f : Source) (lines : List Line)
    (hload : editorModelLoad alloc f = some lines) (hnul : 0 ∉ f.text) (hcr : 13 ∉ f.text) :
    (lines = textLines f.text [] ∧
      ∀ opened write fsync out, editorModelSave f.path opened write fsync lines = some out →
        out = endNewline f.text) ↔
      (f.stat = none → f.text = []) ∧ ∀ line ∈ textLines f.text [], line.length < 256 := by
  rw [← load_lines hload hnul hcr]
  refine ⟨And.left, fun h => ⟨h, fun opened write fsync out hsave => ?_⟩⟩
  obtain ⟨-, hsave⟩ := some_of_guard hsave
  obtain ⟨out', hout, hsync⟩ := Option.bind_eq_some_iff.mp hsave
  split_ifs at hsync
  obtain rfl := Option.some.inj hsync
  rw [saveLines_eq hout, h, nil_append, textLines_joined not_mem_nil, nil_append]

def readable (reads : List (Option (List UInt8))) : Source := ⟨[47, 102], some false, true, reads⟩

theorem load_save_exact_two_lines :
    editorModelLoad (fun _ => true) (readable [some [97, 10], some [98]]) = some [[97], [98]] ∧
      ∀ opened write fsync out, editorModelSave [47, 102] opened write fsync [[97], [98]] = some out →
        out = [97, 10, 98, 10] :=
  ⟨rfl, ((load_save_exact (fun _ => true) (readable [some [97, 10], some [98]]) _ rfl (by decide)
    (by decide)).mpr (by decide)).2⟩

/-- The last byte of a line of 256 is lost, and a file that cannot be looked at loads as empty. -/
theorem long_line_is_cut : (let f := readable [some (replicate 128 97), some (replicate 128 97)]
     editorModelLoad (fun _ => true) f = some [replicate 255 97] ∧
       textLines f.text [] = [replicate 256 97]) ∧
    (let f := { readable [some [97]] with stat := none }
     editorModelLoad (fun _ => true) f = some [] ∧ textLines f.text [] = [[97]]) := by
  decide +kernel

end SmallOS.Editor
