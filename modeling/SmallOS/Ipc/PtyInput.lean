import Mathlib.Algebra.Order.Group.Nat
import Mathlib.Algebra.Order.BigOperators.Group.List
import SmallOS.Ipc.Pty

/-! The input of a PTY. A write to the master looks for control bytes first: one of them ends the
call, and the bytes in front of it count as written. -/

namespace SmallOS.Ipc

open List Option

structure Termios where
  isig : Bool
  icanon : Bool
  echo : Bool
  opost : Bool
  onlcr : Bool
  vintr : UInt8
  vsusp : UInt8
  veof : UInt8

/-- A PTY: `master_to_slave`, `slave_to_master`, and the process groups that control bytes are
for, its own and `s_foreground_pgid`. -/
structure Pty where
  input : Pipe
  output : Out
  termios : Termios
  foregroundPgid : Nat
  sForegroundPgid : Nat

inductive Notice
  | interrupt (pgid : Nat)
  | stop (pgid : Nat)
  deriving DecidableEq

def Notice.text : Notice → List UInt8
  | .interrupt _ => [94, 67, 10]
  | .stop _ => [94, 90, 10]

def Pty.interruptPgid (t : Pty) : Nat :=
  if t.foregroundPgid ≠ 0 then t.foregroundPgid else t.sForegroundPgid

/-- What a byte from the master does instead of being queued. -/
def Pty.notice (t : Pty) (b : UInt8) : Option Notice :=
  if t.termios.isig = false ∨ t.interruptPgid = 0 then none
  else if b = if t.termios.vintr ≠ 0 then t.termios.vintr else 3 then
    some (.interrupt t.interruptPgid)
  else if b = if t.termios.vsusp ≠ 0 then t.termios.vsusp else 26 then
    some (.stop t.interruptPgid)
  else none

def scan (f : UInt8 → Option Notice) : List UInt8 → Option (Nat × Notice)
  | [] => none
  | b :: rest =>
    match f b with
    | some x => some (0, x)
    | none => (scan f rest).map fun r => (r.1 + 1, r.2)

/-- The echo of a byte or of a notice, and whether it comes back without sleeping. -/
def Pty.echo (t : Pty) (waits : Bool) (text : List UInt8) : Out × Bool :=
  if t.termios.echo = false then (t.output, true)
  else if t.termios.opost && t.termios.onlcr then
    let w := ptyBufferWriteOutput false waits text 0 0 t.output
    (w.1, w.2.2.2.isSome)
  else
    let w := ptyBufferWrite false waits text text.length t.output.ring 0
    ({ t.output with ring := w.1 }, w.2.2.isSome)

/-- `process_handle_pty_write` on the master, up to its end or until it sleeps. -/
def Pty.write (t : Pty) (nonblock waits : Bool) (buf : List UInt8) :
    Pty × Option (Except PtyErrno Nat) × List Notice :=
  match scan t.notice buf with
  | some (i, x) =>
    let e := t.echo waits x.text
    ({ t with output := e.1 }, if e.2 then some (.ok (if 0 < i then i else 1)) else none, [x])
  | none =>
    let w := ptyBufferWrite nonblock waits buf buf.length t.input 0
    ({ t with input := w.1 }, w.2.2, [])

/-- A caller that goes on with the bytes after those a call reports; none if a call sleeps or
fails. -/
def Pty.writeAll (nonblock waits : Bool) : Nat → Pty → List UInt8 → Option (Pty × List Notice)
  | _, t, [] => some (t, [])
  | 0, _, _ :: _ => none
  | fuel + 1, t, b :: rest =>
    match t.write nonblock waits (b :: rest) with
    | (t', some (.ok n), notices) =>
      (writeAll nonblock waits fuel t' ((b :: rest).drop n)).map fun r => (r.1, notices ++ r.2)
    | _ => none

/-- `process_handle_pty_read_common` on the slave, up to its end or until it sleeps, with the bytes
it has put into the buffer. A read that slept goes on as one of the rest of its length. -/
def Pty.read (echo nonblock waits : Bool) : (len : Nat) → Pty → Pty × List UInt8
  | 0, t => (t, [])
  | len + 1, t =>
    let r := readTurn t.input nonblock 1 waits
    let canonical := echo && t.termios.icanon
    let u := { t with input := r.1 }
    match bytesOf r.2 with
    | [] => (u, [])
    | b :: _ =>
      if canonical && b == t.termios.veof then (u, [])
      else
        let e := if echo then u.echo waits [b] else (u.output, true)
        let v := { u with output := e.1 }
        if e.2 && canonical && b != 10 then
          let w := Pty.read echo nonblock waits len v
          (w.1, b :: w.2)
        else (v, [b])

abbrev Leads (f : UInt8 → Option Notice) (buf : List UInt8) : Prop :=
  buf.Pairwise fun a b => (f b).isSome → (f a).isSome

/-- How often the writes of a buffer come to a control byte: once, and twice behind a data byte. -/
def sightings (f : UInt8 → Option Notice) : (behind : Bool) → List UInt8 → Nat
  | _, [] => 0
  | behind, b :: rest =>
    if (f b).isSome then (if behind then 2 else 1) + sightings f false rest
    else sightings f true rest

structure Pty.Open (t : Pty) : Prop where
  input : t.input.Sound
  output : t.output.ring.Sound
  slave : t.input.readRefs ≠ 0
  master : t.output.ring.readRefs ≠ 0

/-- Room for the data bytes, and for the echo of every control byte that is come to. -/
structure Pty.Room (t : Pty) (buf : List UInt8) : Prop where
  input : t.input.count + buf.countP (fun b => (t.notice b).isNone) ≤ pipeBufferSize
  output : t.termios.echo = true →
    t.output.ring.count + 4 * sightings t.notice false buf ≤ pipeBufferSize

/-- The bytes of a text that is echoed, with a carriage return for each newline. -/
def echoLength (text : List UInt8) : Nat := text.length + text.count 10

variable {t t' : Pty} {p : Pipe} {o : Out} {nonblock waits : Bool} {buf rest : List UInt8}
  {f : UInt8 → Option Notice}

theorem putBytes_room (h : p.Sound) (buf : List UInt8) (room : p.count + buf.length ≤ pipeBufferSize) :
    (putBytes p buf).2 = buf.length ∧ Becomes p (putBytes p buf).1 (p.contents ++ buf) ∧
      (putBytes p buf).1.count = p.count + buf.length := by
  obtain ⟨put, all⟩ := putBytes_spec h buf
  rw [Nat.min_eq_left (by omega)] at all
  rw [all, take_length] at put
  refine ⟨all, put, ?_⟩
  rw [← Pipe.length_contents, put.contents, length_append, Pipe.length_contents]

theorem ptyBufferWrite_room (h : p.Sound) (opened : p.readRefs ≠ 0)
    (room : p.count + buf.length ≤ pipeBufferSize) :
    ptyBufferWrite nonblock waits buf buf.length p 0 =
      ((putBytes p buf).1, buf.length, some (.ok buf.length)) := by
  have all := (putBytes_room h buf room).1
  cases buf with
  | nil => rfl
  | cons b rest =>
    simp only [length_cons] at all room ⊢
    unfold ptyBufferWrite
    rw [if_neg (by simp), if_neg opened, if_neg (by omega)]
    simp only [drop_zero, all, Nat.zero_add]
    cases nonblock with
    | true => simp
    | false => cases rest <;> simp [ptyBufferWrite]

theorem ptyBufferWriteOutput_room (waits : Bool) (rest : List UInt8) (done : Nat) (h : o.ring.Sound)
    (opened : o.ring.readRefs ≠ 0) (room : o.ring.count + echoLength rest ≤ pipeBufferSize) :
    (ptyBufferWriteOutput false waits rest done 0 o).2.2.2.isSome ∧
      (ptyBufferWriteOutput false waits rest done 0 o).1.ring.Sound ∧
      (ptyBufferWriteOutput false waits rest done 0 o).1.ring.readRefs ≠ 0 ∧
      (ptyBufferWriteOutput false waits rest done 0 o).1.ring.count ≤
        o.ring.count + echoLength rest := by
  induction rest generalizing o done with
  | nil => exact ⟨rfl, h, opened, Nat.le_add_right ..⟩
  | cons b rest ih =>
    have short : (piece o.prevCr b).length + echoLength rest ≤ echoLength (b :: rest) := by
      unfold piece echoLength
      split_ifs with newline
      · simp [newline.1]
        omega
      · rw [length_cons, count_cons]
        simp
        omega
    obtain ⟨-, put, count⟩ := putBytes_room h (piece o.prevCr b) (by omega)
    obtain ⟨x, l, bytes⟩ := exists_piece o.prevCr b
    rw [ptyBufferWriteOutput, Nat.sub_zero, ptyBufferWrite_room h opened (by omega)]
    rw [bytes] at short put count ⊢
    obtain ⟨ends, sound, refs, le⟩ := ih (o := ⟨(putBytes o.ring (x :: l)).1, b == 13⟩) (done + 1)
      put.sound (put.readRefs.trans_ne opened) (by simp only; omega)
    exact ⟨ends, sound, refs, le.trans (by simp only; omega)⟩

theorem Pty.Open.echo (h : t.Open) (waits : Bool) (text : List UInt8)
    (room : t.termios.echo = true → t.output.ring.count + echoLength text ≤ pipeBufferSize) :
    (t.echo waits text).2 = true ∧ (t.echo waits text).1.ring.Sound ∧
      (t.echo waits text).1.ring.readRefs ≠ 0 ∧
      (t.echo waits text).1.ring.count ≤ t.output.ring.count + echoLength text := by
  have less : text.length ≤ echoLength text := Nat.le_add_right ..
  unfold Pty.echo
  split_ifs with off cooked
  · exact ⟨rfl, h.output, h.master, Nat.le_add_right ..⟩
  all_goals have space := room (by simpa using off)
  · exact ptyBufferWriteOutput_room waits text 0 h.output h.master space
  · obtain ⟨-, put, count⟩ := putBytes_room h.output text (by omega)
    rw [ptyBufferWrite_room h.output h.master (by omega)]
    exact ⟨rfl, put.sound, put.readRefs.trans_ne h.master, by simp only; omega⟩

theorem scan_none (none_ : scan f buf = none) : ∀ b ∈ buf, f b = none := by
  induction buf with
  | nil => simp
  | cons b rest ih =>
    unfold scan at none_
    cases at_ : f b with
    | some x => simp [at_] at none_
    | none =>
      simp only [at_, map_eq_none_iff] at none_
      simpa [at_] using ih none_

theorem scan_some {i : Nat} {x : Notice} (found : scan f buf = some (i, x)) :
    ∃ d b rest, buf = d ++ b :: rest ∧ d.length = i ∧ f b = some x ∧ ∀ a ∈ d, f a = none := by
  induction buf generalizing i with
  | nil => cases found
  | cons b rest ih =>
    unfold scan at found
    cases at_ : f b with
    | some y =>
      simp only [at_, Option.some.injEq, Prod.mk.injEq] at found
      obtain ⟨rfl, rfl⟩ := found
      exact ⟨[], b, rest, rfl, rfl, at_, by simp⟩
    | none =>
      simp only [at_, map_eq_some_iff, Prod.mk.injEq] at found
      obtain ⟨⟨j, y⟩, inner, rfl, rfl⟩ := found
      obtain ⟨d, c, rest, rfl, rfl, here, data⟩ := ih inner
      exact ⟨b :: d, c, rest, rfl, rfl, here, by simpa [at_] using data⟩

theorem sightings_control {c : UInt8} {x : Notice} (here : f c = some x) (rest : List UInt8) :
    sightings f false (c :: rest) = 1 + sightings f false rest := by
  simp [sightings, here]

theorem sightings_data {c : UInt8} {x : Notice} {d : List UInt8} (here : f c = some x)
    (data : ∀ b ∈ d, f b = none) (some_ : d ≠ []) (behind : Bool) (rest : List UInt8) :
    sightings f behind (d ++ c :: rest) = 2 + sightings f false rest := by
  induction d generalizing behind with
  | nil => exact absurd rfl some_
  | cons b d ih =>
    obtain ⟨first, data⟩ := forall_mem_cons.mp data
    rw [cons_append, sightings, first]
    cases d with
    | nil => simp [sightings, here]
    | cons => simpa using ih data (by simp) true

theorem leads_iff (f : UInt8 → Option Notice) (buf : List UInt8) :
    (buf.countP (fun b => (f b).isSome) ≤ sightings f false buf ∧
      (sightings f false buf = buf.countP (fun b => (f b).isSome) ↔ Leads f buf)) ∧
    buf.countP (fun b => (f b).isSome) ≤ sightings f true buf ∧
      (sightings f true buf = buf.countP (fun b => (f b).isSome) ↔ ∀ b ∈ buf, f b = none) := by
  induction buf with
  | nil => simp [sightings, Leads]
  | cons b rest ih =>
    obtain ⟨⟨le, eq⟩, le', eq'⟩ := ih
    cases here : f b with
    | some x =>
      have leads : Leads f (b :: rest) ↔ Leads f rest := by simp [Leads, here]
      have count : (b :: rest).countP (fun b => (f b).isSome) =
          rest.countP (fun b => (f b).isSome) + 1 := countP_cons_of_pos (by simp [here])
      rw [leads, ← eq, count, forall_mem_cons, here]
      simp only [sightings, here, isSome_some, if_true, Bool.false_eq_true, if_false,
        reduceCtorEq, false_and, iff_false]
      omega
    | none =>
      have leads : Leads f (b :: rest) ↔ ∀ c ∈ rest, f c = none := by
        simp only [Leads, pairwise_cons, here, isSome_none, Bool.false_eq_true, imp_false,
          Bool.not_eq_true, isSome_eq_false_iff, isNone_iff_eq_none]
        exact ⟨And.left, fun all => ⟨all, pairwise_of_forall_mem_list fun a _ c mem yes => by
          simp [all c mem] at yes⟩⟩
      rw [leads, ← eq']
      simp [sightings, here, le', ← eq']

theorem leads_of_data (data : ∀ b ∈ buf, f b = none) : Leads f buf :=
  pairwise_of_forall_mem_list fun _ _ c mem yes => by simp [data c mem] at yes

structure Written (f : UInt8 → Option Notice) (t t' : Pty) (buf : List UInt8)
    (notices : List Notice) : Prop where
  opened : t'.Open
  notice : t'.notice = t.notice
  termios : t'.termios = t.termios
  count : notices.length = sightings f false buf
  exact_ : Leads f buf → notices = buf.filterMap f ∧
    t'.input.contents = t.input.contents ++ buf.filter (fun b => (f b).isNone)

variable {c : UInt8} {x : Notice} {ns : List Notice} {out : Out}

theorem Written.nil (h : t.Open) : Written f t t [] [] := ⟨h, rfl, rfl, rfl, by simp⟩

theorem Written.data (h : t.Open) (room : t.input.count + buf.length ≤ pipeBufferSize)
    (data : ∀ b ∈ buf, f b = none) :
    Written f t { t with input := (putBytes t.input buf).1 } buf [] := by
  obtain ⟨-, put, -⟩ := putBytes_room h.input buf room
  refine ⟨⟨put.sound, h.output, put.readRefs.trans_ne h.slave, h.master⟩, rfl, rfl, ?_,
    fun _ => ⟨(filterMap_eq_nil_iff.mpr data).symm, ?_⟩⟩
  · rw [(leads_iff f buf).1.2.mpr (leads_of_data data),
      countP_eq_zero.mpr fun b mem => by simp [data b mem]]
    rfl
  · rw [filter_eq_self.mpr fun b mem => by simp [data b mem]]
    exact put.contents

theorem Written.control (h : Written f { t with output := out } t' rest ns) (here : f c = some x) :
    Written f t t' (c :: rest) (x :: ns) := by
  have leads : Leads f (c :: rest) ↔ Leads f rest := by simp [Leads, here]
  refine ⟨h.opened, h.notice, h.termios, ?_, fun yes => ?_⟩
  · rw [length_cons, h.count, sightings_control here, Nat.add_comm]
  · simpa [here] using h.exact_ (leads.mp yes)

theorem Written.lost {d : List UInt8} (h : Written f { t with output := out } t' (c :: rest) ns)
    (here : f c = some x) (data : ∀ b ∈ d, f b = none) (some_ : d ≠ []) :
    Written f t t' (d ++ c :: rest) (x :: ns) := by
  refine ⟨h.opened, h.notice, h.termios, ?_, fun leads => ?_⟩
  · rw [length_cons, h.count, sightings_data here data some_, sightings_control here]
    omega
  · obtain ⟨a, l, rfl⟩ := exists_cons_of_ne_nil some_
    have first := (pairwise_append.mp leads).2.2 a mem_cons_self c mem_cons_self
    simp [here, data a mem_cons_self] at first

theorem Pty.Open.write_data (nonblock waits : Bool) (h : t.Open) (room : t.Room buf)
    (found : scan t.notice buf = none) : t.input.count + buf.length ≤ pipeBufferSize ∧
      t.write nonblock waits buf =
        ({ t with input := (putBytes t.input buf).1 }, some (.ok buf.length), []) := by
  have fits : t.input.count + buf.length ≤ pipeBufferSize := by
    have := room.input
    rwa [countP_eq_length.mpr fun b mem => by simp [scan_none found b mem]] at this
  refine ⟨fits, ?_⟩
  simp only [Pty.write, found, ptyBufferWrite_room h.input h.slave fits]

theorem Pty.Open.write_control {i : Nat} (nonblock waits : Bool) (h : t.Open)
    (room : t.termios.echo = true → t.output.ring.count + 4 ≤ pipeBufferSize)
    (found : scan t.notice buf = some (i, x)) : ∃ out,
      t.write nonblock waits buf =
        ({ t with output := out }, some (.ok (if 0 < i then i else 1)), [x]) ∧
      Pty.Open { t with output := out } ∧ out.ring.count ≤ t.output.ring.count + 4 := by
  have four : echoLength x.text = 4 := by cases x <;> rfl
  obtain ⟨back, sound, refs, grown⟩ := h.echo waits x.text fun on => by
    have := room on
    omega
  refine ⟨(t.echo waits x.text).1, ?_, ⟨h.input, sound, h.slave, refs⟩, by omega⟩
  simp only [Pty.write, found, back, if_true]

theorem Pty.Open.writeAll (nonblock waits : Bool) (fuel : Nat) (h : t.Open) (room : t.Room buf)
    (enough : buf.length ≤ fuel) : ∃ t' ns, Pty.writeAll nonblock waits fuel t buf = some (t', ns) ∧
      Written t.notice t t' buf ns := by
  induction fuel generalizing t buf with
  | zero =>
    obtain rfl := eq_nil_of_length_eq_zero (Nat.le_zero.mp enough)
    exact ⟨t, [], rfl, .nil h⟩
  | succ fuel ih =>
    cases buf with
    | nil => exact ⟨t, [], rfl, .nil h⟩
    | cons b rest =>
      unfold Pty.writeAll
      cases found : scan t.notice (b :: rest) with
      | none =>
        obtain ⟨fits, call⟩ := h.write_data nonblock waits room found
        rw [call]
        exact ⟨_, [], by simp [Pty.writeAll], .data h fits (scan_none found)⟩
      | some r =>
        obtain ⟨i, x⟩ := r
        obtain ⟨d, c, later, eq, rfl, here, data⟩ := scan_some found
        have inputRoom := room.input
        have outputRoom := room.output
        rw [eq] at inputRoom outputRoom enough
        rw [countP_append] at inputRoom
        -- a byte that is come to is echoed, and the room for the rest is left
        have space : t.termios.echo = true → t.output.ring.count + 4 +
            4 * sightings t.notice false (if d = [] then later else c :: later) ≤ pipeBufferSize := by
          intro on
          have := outputRoom on
          split_ifs with none_
          · rw [none_, nil_append, sightings_control here] at this
            omega
          · rw [sightings_data here data none_] at this
            rw [sightings_control here]
            omega
        obtain ⟨out, call, opened, grown⟩ := h.write_control nonblock waits
          (fun on => by have := space on; omega) found
        have left (l : List UInt8)
            (input : t.input.count + l.countP (fun b => (t.notice b).isNone) ≤ pipeBufferSize)
            (output : t.termios.echo = true →
              t.output.ring.count + 4 + 4 * sightings t.notice false l ≤ pipeBufferSize) :
            Pty.Room { t with output := out } l := by
          refine ⟨input, fun on => ?_⟩
          have := output on
          change out.ring.count + 4 * sightings t.notice false l ≤ _
          omega
        rw [call, eq]
        cases d with
        | nil =>
          obtain ⟨t', ns, run, written⟩ := @ih _ later opened
            (left _ (by simpa [here] using inputRoom) (by simpa using space))
            (by simp at enough; omega)
          exact ⟨t', x :: ns, by simp [run], written.control here⟩
        | cons a d =>
          obtain ⟨t', ns, run, written⟩ := @ih _ (c :: later) opened
            (left _ (by omega) (by simpa using space)) (by simp at enough ⊢; omega)
          exact ⟨t', x :: ns, by simp [run], written.lost here data (by simp)⟩

/-- The bytes that a read of the slave hands on: in canonical mode `VEOF` ends it instead. -/
def Pty.passes (t : Pty) (b : UInt8) : Bool := !(t.termios.icanon && b == t.termios.veof)

theorem readTurn_one (h : p.Sound) (nonblock waits : Bool) :
    bytesOf (readTurn p nonblock 1 waits).2 = [] ∧
        Becomes p (readTurn p nonblock 1 waits).1 p.contents ∨
      ∃ b rest, bytesOf (readTurn p nonblock 1 waits).2 = [b] ∧ p.contents = b :: rest ∧
        Becomes p (readTurn p nonblock 1 waits).1 rest := by
  obtain ⟨rest, ring, front⟩ := readTurn_split h nonblock 1 waits
  have one : (bytesOf (readTurn p nonblock 1 waits).2).length ≤ 1 := by
    obtain ⟨-, none⟩ | ⟨bytes, -⟩ := readTurn_cases h nonblock 1 waits
    · unfold bytesOf
      split
      · next bytes eq => exact absurd eq (none bytes)
      · exact Nat.zero_le 1
    · rw [bytes, bytesOf, length_take]
      exact Nat.min_le_left ..
  generalize bytesOf (readTurn p nonblock 1 waits).2 = bytes at one front ⊢
  cases bytes with
  | nil => exact .inl ⟨rfl, front ▸ ring⟩
  | cons b more =>
    obtain rfl : more = [] := by simpa using one
    exact .inr ⟨b, rest, rfl, front.symm, ring⟩

theorem Pty.Open.read (nonblock waits : Bool) (len : Nat) (h : t.Open)
    (room : t.termios.echo = true →
      t.output.ring.count + 2 * min len t.input.count ≤ pipeBufferSize) :
    (Pty.read true nonblock waits len t).1.Open ∧
      (Pty.read true nonblock waits len t).1.notice = t.notice ∧
      (Pty.read true nonblock waits len t).1.termios = t.termios ∧
      ∃ taken, taken ++ (Pty.read true nonblock waits len t).1.input.contents = t.input.contents ∧
        (Pty.read true nonblock waits len t).2 = taken.filter t.passes := by
  induction len generalizing t with
  | zero => exact ⟨h, rfl, rfl, [], rfl, rfl⟩
  | succ len ih =>
    unfold Pty.read
    extract_lets r canonical u
    obtain ⟨bytes, ring⟩ | ⟨b, rest, bytes, contents, ring⟩ := readTurn_one h.input nonblock waits
    all_goals have opened : u.Open :=
      ⟨ring.sound, h.output, ring.readRefs.trans_ne h.slave, h.master⟩
    · simp only [r, bytes]
      exact ⟨opened, rfl, rfl, [], ring.contents, rfl⟩
    have count : t.input.count = u.input.count + 1 := by
      rw [← Pipe.length_contents, ← Pipe.length_contents, contents, ring.contents, length_cons]
    have two : echoLength [b] ≤ 2 := Nat.add_le_add_left count_le_length 1
    obtain ⟨back, sound, refs, grown⟩ := opened.echo waits [b] fun on => by
      have := room on
      change t.output.ring.count + _ ≤ _
      omega
    have echoed : Pty.Open { u with output := (u.echo waits [b]).1 } :=
      ⟨opened.input, sound, opened.slave, refs⟩
    simp only [r, bytes, back, Bool.true_and, if_true]
    split_ifs with eof more
    · have skipped : t.passes b = false := by simpa [Pty.passes, canonical] using eof
      refine ⟨opened, rfl, rfl, [b], by rw [contents, ring.contents]; rfl, ?_⟩
      simp [skipped]
    all_goals
      have passed : t.passes b = true := by
        rw [Pty.passes, Bool.not_eq_true']
        exact Bool.eq_false_iff.mpr eof
    · obtain ⟨opened', notice, termios, taken, split, bytes⟩ := ih echoed fun on => by
        have := room on
        change (u.echo waits [b]).1.ring.count + 2 * min len u.input.count ≤ _
        change (u.echo waits [b]).1.ring.count ≤ t.output.ring.count + _ at grown
        omega
      refine ⟨opened', notice, termios, b :: taken, ?_, ?_⟩
      · rw [cons_append, split, contents, ring.contents]
      · rw [filter_cons_of_pos passed, bytes]
        rfl
    · refine ⟨echoed, rfl, rfl, [b], by rw [contents, ring.contents]; rfl, ?_⟩
      simp [passed]

/-- A PTY, what the slave has read and the notices so far, and the buffers written to the master. -/
structure Session where
  pty : Pty
  got : List UInt8
  notices : List Notice
  written : List (List UInt8)

inductive InputAct
  | write (buf : List UInt8) (nonblock waits : Bool)
  | slaveRead (len : Nat) (nonblock waits : Bool)
  | masterRead (len : Nat) (nonblock waits : Bool)

def Session.step (s : Session) : InputAct → Session
  | .write buf nonblock waits =>
    match s.pty.writeAll nonblock waits buf.length buf with
    | none => s
    | some (t, ns) =>
      { s with pty := t, notices := s.notices ++ ns, written := s.written ++ [buf] }
  | .slaveRead len nonblock waits =>
    let r := Pty.read true nonblock waits len s.pty
    { s with pty := r.1, got := s.got ++ r.2 }
  | .masterRead len nonblock waits =>
    let r := readTurn s.pty.output.ring nonblock len waits
    { s with pty := { s.pty with output := { s.pty.output with ring := r.1 } } }

def Session.Roomy (s : Session) : InputAct → Prop
  | .write buf _ _ => s.pty.Room buf
  | .slaveRead len _ _ => s.pty.termios.echo = true →
    s.pty.output.ring.count + 2 * min len s.pty.input.count ≤ pipeBufferSize
  | .masterRead .. => True

inductive Session.Run (t : Pty) : Session → Prop
  | start : Run t ⟨t, [], [], []⟩
  | step {s : Session} {a : InputAct} : Run t s → s.Roomy a → Run t (s.step a)

def Session.data (t : Pty) (s : Session) : List UInt8 :=
  t.input.contents ++ s.written.flatten.filter fun b => (t.notice b).isNone

/-- The notices are as many as control bytes are come to, and the ring has lost what was read as
long as the control bytes of each buffer come first. -/
structure Session.Inv (t : Pty) (s : Session) : Prop where
  opened : s.pty.Open
  notice : s.pty.notice = t.notice
  termios : s.pty.termios = t.termios
  count : s.notices.length = (s.written.map (sightings t.notice false)).sum
  exact_ : (∀ buf ∈ s.written, Leads t.notice buf) →
    s.notices = s.written.flatten.filterMap t.notice ∧ ∃ taken,
      taken ++ s.pty.input.contents = s.data t ∧ s.got = taken.filter t.passes

variable {s : Session}

theorem Session.Inv.step (h : s.Inv t) {a : InputAct} (room : s.Roomy a) : (s.step a).Inv t := by
  cases a with
  | write buf nonblock waits =>
    obtain ⟨t', ns, run, w⟩ := h.opened.writeAll nonblock waits buf.length room le_rfl
    rw [h.notice] at w
    have flat : (s.written ++ [buf]).flatten = s.written.flatten ++ buf := by simp
    simp only [Session.step, run]
    refine ⟨w.opened, w.notice.trans h.notice, w.termios.trans h.termios, ?_, fun all => ?_⟩
    · simp [h.count, w.count]
    · obtain ⟨notices, taken, queue, got⟩ := h.exact_ fun b mem => all b (mem_append_left _ mem)
      obtain ⟨notices', more⟩ := w.exact_ (all buf (by simp))
      refine ⟨?_, taken, ?_, got⟩
      · rw [flat, filterMap_append, notices', notices]
      · rw [more, ← append_assoc, queue, Session.data, Session.data, flat, filter_append,
          append_assoc]
  | slaveRead len nonblock waits =>
    obtain ⟨opened, notice, termios, taken', split, bytes⟩ :=
      h.opened.read nonblock waits len room
    have passes : s.pty.passes = t.passes := by
      funext b
      rw [Pty.passes, Pty.passes, h.termios]
    refine ⟨opened, notice.trans h.notice, termios.trans h.termios, h.count, fun all => ?_⟩
    obtain ⟨notices, taken, queue, got⟩ := h.exact_ all
    refine ⟨notices, taken ++ taken', ?_, ?_⟩
    · rw [append_assoc]
      exact (congrArg (taken ++ ·) split).trans queue
    · change s.got ++ _ = _
      rw [filter_append, ← got, bytes, passes]
  | masterRead len nonblock waits =>
    obtain ⟨rest, left, -⟩ := readTurn_split h.opened.output nonblock len waits
    exact ⟨⟨h.opened.input, left.sound, h.opened.slave, left.readRefs.trans_ne h.opened.master⟩,
      h.notice, h.termios, h.count, h.exact_⟩

theorem Session.Run.inv (opened : t.Open) (run : Run t s) : s.Inv t := by
  induction run with
  | start => exact ⟨opened, rfl, rfl, rfl, fun _ => ⟨rfl, [], by simp [Session.data], rfl⟩⟩
  | step _ room ih => exact ih.step room

/-- While there is room, every write comes to its end. The slave gets the data bytes, and each
control byte gives one notice, if no buffer has a data byte in front of a control byte and in
canonical mode no data byte is `VEOF`; and once the slave has read everything, only then. -/
theorem pty_input_exact_iff (opened : t.Open) (run : Session.Run t s) :
    (∀ buf nonblock waits, s.pty.Room buf → (s.pty.writeAll nonblock waits buf.length buf).isSome) ∧
    ((∀ buf ∈ s.written, Leads t.notice buf) ∧ (∀ b ∈ s.data t, t.passes b = true) →
      s.got ++ s.pty.input.contents = s.data t ∧ s.notices = s.written.flatten.filterMap t.notice) ∧
    (s.pty.input.contents = [] → s.got = s.data t →
      s.notices = s.written.flatten.filterMap t.notice →
      (∀ buf ∈ s.written, Leads t.notice buf) ∧ ∀ b ∈ s.data t, t.passes b = true) := by
  have h := run.inv opened
  refine ⟨fun buf nonblock waits room => ?_, fun ⟨leads, passes⟩ => ?_, fun drained got notices => ?_⟩
  · obtain ⟨t', ns, done, -⟩ := h.opened.writeAll nonblock waits buf.length room le_rfl
    rw [done]
    rfl
  · obtain ⟨notices, taken, queue, got⟩ := h.exact_ leads
    refine ⟨?_, notices⟩
    rw [got, filter_eq_self.mpr fun b mem => passes b (queue ▸ mem_append_left _ mem), queue]
  · have leads : ∀ buf ∈ s.written, Leads t.notice buf := by
      intro buf mem
      by_contra not
      have more : buf.countP (fun b => (t.notice b).isSome) < sightings t.notice false buf :=
        lt_of_le_of_ne (leads_iff _ buf).1.1 fun same => not ((leads_iff _ buf).1.2.mp same.symm)
      have lt := sum_lt_sum _ _ (fun b _ => (leads_iff t.notice b).1.1) ⟨buf, mem, more⟩
      rw [← h.count, notices, length_filterMap_eq_countP, countP_flatten] at lt
      exact lt.false
    refine ⟨leads, ?_⟩
    obtain ⟨-, taken, queue, taken'⟩ := h.exact_ leads
    rw [drained, append_nil] at queue
    rw [got, queue] at taken'
    exact filter_eq_self.mp taken'.symm

def newPty : Pty :=
  ⟨⟨Bytes.zeros, 0, 0, 0, 1, 1⟩, (newOut 1 1).out, ⟨true, true, true, true, true, 3, 26, 4⟩, 4, 0⟩

theorem newPty_open : newPty.Open :=
  ⟨⟨by decide, by decide, rfl⟩, ⟨by decide, by decide, rfl⟩, by decide, by decide⟩

theorem pty_input_exact_leading :
    let s := Session.step ⟨newPty, [], [], []⟩ (.write [3, 97] false true)
    s.got ++ s.pty.input.contents = [97] ∧ s.notices = [.interrupt 4] := by
  intro s
  have run : Session.Run newPty s :=
    .step .start (show newPty.Room [3, 97] from ⟨by decide, by decide⟩)
  exact (pty_input_exact_iff newPty_open run).2.1 (by decide +kernel)

/-- `^C` after a letter: the letter is lost and the group gets two signals. And `^D` is never read. -/
theorem pty_input_lost : (let s := Session.step ⟨newPty, [], [], []⟩ (.write [97, 3] false true)
     s.written = [[97, 3]] ∧ s.got ++ s.pty.input.contents = [] ∧
      s.notices = [.interrupt 4, .interrupt 4]) ∧
    (let s := Session.step (Session.step ⟨newPty, [], [], []⟩ (.write [4] false true))
      (.slaveRead 1 false true)
     s.written = [[4]] ∧ s.got ++ s.pty.input.contents = []) := by
  decide

end SmallOS.Ipc
