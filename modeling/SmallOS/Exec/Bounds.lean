import SmallOS.Exec.Loading

/-! Which parts of an image the loader reads. It compares no offset with a length, so it stays
inside the image exactly when the offsets in the image do. What it writes lies in the areas it has
made. -/

namespace SmallOS.Exec

open Bytes Prog Ranges Vm List Image

variable {m w : Prop}

def Inside (img : Image) (s : Loader) : Prop := ∀ r ∈ s.reads, r.1 + r.2 ≤ img.len

/-- `x` returns a result with `R`. Its reads were inside the image only if `lo` holds, and
they are inside, whether it returns or fails, if `up` holds. -/
def Looks {α : Type} (img : Image) (x : L α) (R : α → Prop) (lo up : Prop) : Prop :=
  ∀ s, Post x s
    (fun a s' => R a ∧ (Inside img s' → Inside img s ∧ lo) ∧
      (up → Inside img s → Inside img s'))
    (fun _ s' => up → Inside img s → Inside img s')

section Rules

variable {α β : Type} {img : Image} {x : L α} {R : α → Prop} {l u : Prop}

theorem Looks.bind {f : α → L β} {S : β → Prop} (hx : Looks img x R l u)
    (hf : ∀ a, R a → Looks img (f a) S m w) : Looks img (x >>= f) S (l ∧ m) (u ∧ w) := by
  intro s
  refine .bind (hx s) (fun _ _ h hup => h hup.1) ?_
  rintro a s1 ⟨ha, back, forth⟩
  refine (hf a ha s1).mono ?_ (fun _ _ h hup hin => h hup.2 (forth hup.1 hin))
  rintro b s2 ⟨hb, back', forth'⟩
  refine ⟨hb, fun hin => ?_, fun hup hin => forth' hup.2 (forth hup.1 hin)⟩
  obtain ⟨hin1, hlo'⟩ := back' hin
  obtain ⟨hin0, hlo⟩ := back hin1
  exact ⟨hin0, hlo, hlo'⟩

theorem Looks.weaken {S : α → Prop} (h : Looks img x R l u)
    (hR : ∀ a, R a → S a) (hlo : l → m) (hup : w → u) : Looks img x S m w := by
  intro s
  refine (h s).mono ?_ (fun _ _ h hu => h (hup hu))
  rintro a s' ⟨ha, back, forth⟩
  exact ⟨hR a ha, fun hin => ⟨(back hin).1, hlo (back hin).2⟩, fun hu => forth (hup hu)⟩

theorem Looks.bounds (h : Looks img x R l u) (hlo : l → m) (hup : w → u) : Looks img x R m w :=
  h.weaken (fun _ h => h) hlo hup

theorem Looks.branch {c : Prop} [Decidable c] {y : L α} (yes : c → Looks img x R l u)
    (no : ¬c → Looks img y R l u) : Looks img (if c then x else y) R l u :=
  fun s => .branch (fun h => yes h s) fun h => no h s

theorem Looks.ret {a : α} (ha : R a) (hlo : l) : Looks img (pure a) R l u :=
  fun _ => .ret ⟨ha, fun hin => ⟨hin, hlo⟩, fun _ => id⟩

theorem Looks.result {g : α → β} {S : β → Prop} (hx : Looks img x R l u)
    (hg : ∀ a, R a → S (g a)) : Looks img (x >>= fun a => pure (g a)) S l u :=
  (hx.bind fun a ha => .ret (u := True) (hg a ha) trivial).bounds And.left fun h => ⟨h, trivial⟩

theorem Looks.raise : Looks img (throw () : L α) R l u := fun _ => Post.raise fun _ => id

theorem Looks.unless {p : Prop} [Decidable (¬p)] {y : L α} {r : α} (early : ¬p → R r)
    (late : p → Looks img y R l u) : Looks img (if ¬p then pure r else y) R (p → l) (p → u) := by
  refine .branch (fun h => .ret (early h) fun h' => absurd h' h) fun h => ?_
  have h := not_not.mp h
  exact (late h).bounds (fun h _ => h) fun hup => hup h

theorem looks_noteRead (img : Image) (offset len : Nat) :
    Looks img (noteRead offset len) (fun _ => True) (offset + len ≤ img.len)
      (offset + len ≤ img.len) := by
  intro s
  refine .assign ⟨trivial, fun hin => ⟨fun r hr => ?_, ?_⟩, fun hup hin r hr => ?_⟩
  · exact hin r (mem_cons_of_mem _ hr)
  · exact hin (offset, len) mem_cons_self
  · rcases mem_cons.mp hr with rfl | hr
    · exact hup
    · exact hin r hr

theorem looks_word (img : Image) (offset : Nat) :
    Looks img (word img offset) (· = readU32 img.bytes offset) (offset + 4 ≤ img.len)
      (offset + 4 ≤ img.len) :=
  (looks_noteRead img offset 4).result fun _ _ => rfl

theorem looks_half (img : Image) (offset : Nat) :
    Looks img (half img offset) (· = readU16 img.bytes offset) (offset + 2 ≤ img.len)
      (offset + 2 ≤ img.len) :=
  (looks_noteRead img offset 2).result fun _ _ => rfl

section

variable {f : Nat → L β} {S : β → Prop} {offset : Nat}

theorem Looks.word (rest : Looks img (f (readU32 img.bytes offset)) S l u) :
    Looks img (Exec.word img offset >>= f) S (offset + 4 ≤ img.len ∧ l) (offset + 4 ≤ img.len ∧ u) :=
  (looks_word img offset).bind (by rintro _ rfl; exact rest)

theorem Looks.half (rest : Looks img (f (readU16 img.bytes offset)) S l u) :
    Looks img (Exec.half img offset >>= f) S (offset + 2 ≤ img.len ∧ l) (offset + 2 ≤ img.len ∧ u) :=
  (looks_half img offset).bind (by rintro _ rfl; exact rest)

end

theorem Looks.skip {f : α → L β} {S : β → Prop} (hx : Looks img x (fun _ => True) True True)
    (hf : ∀ a, Looks img (f a) S l u) : Looks img (x >>= f) S l u :=
  (hx.bind fun a _ => hf a).bounds And.right fun h => ⟨trivial, h⟩

end Rules

/-- The header fields that are looked at, each after the one before it was as expected. -/
def Image.HeaderFits (img : Image) : Prop :=
  4 ≤ img.len ∧ (readU32 img.bytes 0 = elfMagic →
    20 ≤ img.len ∧ (readU16 img.bytes 18 = 3 →
      44 ≤ img.len ∧ (readU16 img.bytes 42 = phdrSize → 46 ≤ img.len)))

theorem Image.HeaderFits.all {img : Image} (h : img.HeaderFits) (valid : img.valid) :
    46 ≤ img.len := by
  obtain ⟨magic, machine, entry, -⟩ := of_decide_eq_true valid
  exact ((h.2 magic).2 machine).2 entry

/-- The first 52 bytes of `tinyImage`: its header, which places the program headers after it. -/
def cutImage : Image := ⟨52, ofList (tinyElf.take 52)⟩

end SmallOS.Exec
