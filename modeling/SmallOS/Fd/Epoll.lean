import SmallOS.Fd.Share

/-! The watches of an epoll descriptor. They hold descriptor numbers, and closing or replacing a
descriptor does not visit them. -/

namespace SmallOS.Fd

open Function List Option

deriving instance DecidableEq for EpollOp

inductive Target
  | epoll
  | other (id : Nat)
  deriving DecidableEq

/-- The descriptors of a process and the page of watches of the epoll descriptor `ep`. Beside them
stands which numbers have been added to it and neither removed, closed nor replaced since. -/
structure Epoll where
  ep : Int
  table : Int → Option Target
  slots : Option (List (Option Watch))
  added : Int → Bool

def Epoll.watches (s : Epoll) : List (Option Watch) :=
  s.slots.getD (List.replicate epollMaxWatches none)

def Epoll.note (s : Epoll) (op : EpollOp) (fd : Int) : Int → Bool :=
  match op with
  | .add => update s.added fd true
  | .del => update s.added fd false
  | _ => s.added

def Epoll.ctl (s : Epoll) (op : EpollOp) (watch : Watch) (mem : Bool) :
    Except CallErrno Unit × Epoll :=
  if s.table s.ep ≠ some .epoll ∨ (s.table watch.fd).isNone then (.error .ebadf, s)
  else if watch.fd = s.ep then (.error .einval, s)
  else if s.slots.isNone ∧ (op = .del ∨ !mem) then (.error .enomem, s)
  else match changeWatches s.watches op watch with
    | .error e => (.error e, { s with slots := some s.watches })
    | .ok slots => (.ok (), { s with slots := some slots, added := s.note op watch.fd })

def epollErr : BitVec 16 := 8

def epollSnapshot (poll : Target → BitVec 16 → BitVec 16) (table : Int → Option Target) :
    List (Option Watch) → Nat → List (Watch × BitVec 16)
  | [], _ | _, 0 => []
  | none :: rest, n => epollSnapshot poll table rest n
  | some watch :: rest, n + 1 =>
    let revents := match table watch.fd with
      | none => epollErr
      | some target => poll target (watch.events.truncate 16)
    if revents ≠ 0 then (watch, revents) :: epollSnapshot poll table rest n
    else epollSnapshot poll table rest (n + 1)

inductive EpollAct
  | ctl (op : EpollOp) (watch : Watch) (mem : Bool)
  | close (fd : Int)
  | open_ (fd : Int) (target : Target)
  | dup2 (old new : Int)

def Epoll.put (s : Epoll) (fd : Int) (target : Option Target) : Epoll :=
  { s with
    table := update s.table fd target
    slots := if fd = s.ep then none else s.slots
    added := if fd = s.ep then fun _ => false else update s.added fd false }

def Epoll.step (s : Epoll) : EpollAct → Epoll
  | .ctl op watch mem => (s.ctl op watch mem).2
  | .close fd => if (s.table fd).isSome then s.put fd none else s
  | .open_ fd target => if (s.table fd).isNone then s.put fd (some target) else s
  | .dup2 old new => if (s.table old).isNone ∨ old = new then s else s.put new (s.table old)

def Epoll.Orderly (s : Epoll) : EpollAct → Prop
  | .close fd => s.added fd = false
  | .dup2 old new => old = new ∨ s.added new = false
  | _ => True

inductive Epoll.Run (ep : Int) (table : Int → Option Target) : Epoll → Prop
  | start : Run ep table ⟨ep, table, none, fun _ => false⟩
  | step {s : Epoll} {a : EpollAct} : Run ep table s → s.Orderly a → Run ep table (s.step a)

variable {s : Epoll} {slots slots' : List (Option Watch)} {watch w : Watch}

theorem snapshot_mem {poll : Target → BitVec 16 → BitVec 16} {table : Int → Option Target}
    {n : Nat} {r : BitVec 16} (h : (w, r) ∈ epollSnapshot poll table slots n) :
    some w ∈ slots ∧ ∀ target, table w.fd = some target → r = poll target (w.events.truncate 16) := by
  induction slots generalizing n with
  | nil => simp [epollSnapshot] at h
  | cons slot rest ih =>
    cases n with
    | zero => simp [epollSnapshot] at h
    | succ n =>
      cases slot with
      | none =>
        obtain ⟨mem, event⟩ := ih (by simpa [epollSnapshot] using h)
        exact ⟨mem_cons_of_mem _ mem, event⟩
      | some watch =>
        rw [epollSnapshot] at h
        split_ifs at h
        · rcases mem_cons.mp h with same | later
          · obtain ⟨rfl, rfl⟩ := Prod.mk.inj same
            exact ⟨mem_cons_self, fun target opened => by rw [opened]⟩
          · exact ⟨mem_cons_of_mem _ (ih later).1, (ih later).2⟩
        · exact ⟨mem_cons_of_mem _ (ih h).1, (ih h).2⟩

theorem epollFindWatch_some {fd : Int} {k : Nat} (find : epollFindWatch slots fd = some k) :
    ∃ old : Watch, slots[k]? = some (some old) ∧ old.fd = fd := by
  obtain ⟨lt, here, -⟩ := findIdx?_eq_some_iff_getElem.mp find
  obtain ⟨old, at_, same⟩ := (Option.any_eq_true _ _).mp here
  exact ⟨old, by rw [getElem?_eq_getElem lt, at_], by simpa using same⟩

theorem changeWatches_ok {op : EpollOp} (ok : changeWatches slots op watch = .ok slots') :
    ∃ k v, slots' = slots.set k v ∧ (v = some watch ∧ op ≠ .del ∨ v = none ∧ op = .del) ∧
      ((op = .add ∧ ∀ (i : Nat) (w : Watch), slots[i]? = some (some w) → w.fd ≠ watch.fd) ∨
        op ≠ .add ∧ ∃ old : Watch, slots[k]? = some (some old) ∧ old.fd = watch.fd) := by
  unfold changeWatches at ok
  cases find : epollFindWatch slots watch.fd with
  | none =>
    cases op with
    | add =>
      simp only [find] at ok
      split at ok
      · next k _ =>
        exact ⟨k, _, (Except.ok.inj ok).symm, .inl ⟨rfl, nofun⟩, .inl ⟨rfl, fun _ _ here => by
          simpa using findIdx?_eq_none_iff.mp find _ (mem_of_getElem? here)⟩⟩
      · cases ok
    | _ => simp [find] at ok
  | some k =>
    have found := epollFindWatch_some find
    cases op with
    | mod =>
      simp only [find, Except.ok.injEq] at ok
      exact ⟨k, _, ok.symm, .inl ⟨rfl, nofun⟩, .inr ⟨nofun, found⟩⟩
    | del =>
      simp only [find, Except.ok.injEq] at ok
      exact ⟨k, _, ok.symm, .inr ⟨rfl, rfl⟩, .inr ⟨nofun, found⟩⟩
    | _ => simp [find] at ok

/-- Every watch is of an open number that has been added, and no two are of the same. -/
structure Epoll.Inv (s : Epoll) : Prop where
  current : ∀ (i : Nat) (w : Watch), s.watches[i]? = some (some w) →
    s.added w.fd = true ∧ (s.table w.fd).isSome
  once : ∀ (i j : Nat) (w w' : Watch), s.watches[i]? = some (some w) →
    s.watches[j]? = some (some w') → w.fd = w'.fd → i = j

theorem watches_none (empty : s.slots = none) (i : Nat) : s.watches[i]? ≠ some (some w) := by
  simp [Epoll.watches, empty, getElem?_replicate]

theorem getElem?_set_some {k i : Nat} {v : Option Watch} (h : (slots.set k v)[i]? = some (some w)) :
    (i = k ∧ v = some w) ∨ (i ≠ k ∧ slots[i]? = some (some w)) := by
  rw [getElem?_set] at h
  split_ifs at h with same lt
  · exact .inl ⟨same.symm, Option.some.inj h⟩
  · exact .inr ⟨fun eq => same eq.symm, h⟩

theorem Epoll.Inv.change (h : s.Inv) {op : EpollOp} (opened : (s.table watch.fd).isSome)
    (ok : changeWatches s.watches op watch = .ok slots') :
    Inv { s with slots := some slots', added := s.note op watch.fd } := by
  obtain ⟨k, v, rfl, set_, place⟩ := changeWatches_ok ok
  -- No other slot than the one set is of the number.
  have others : ∀ (i : Nat) (w : Watch), i ≠ k → s.watches[i]? = some (some w) →
      w.fd ≠ watch.fd := by
    intro i w other here same
    obtain ⟨-, none_⟩ | ⟨-, old, at_, fd⟩ := place
    · exact none_ i w here same
    · exact other (h.once i k w old here at_ (same.trans fd.symm))
  have held : ∀ w, v = some w → w = watch := by
    obtain ⟨rfl, -⟩ | ⟨rfl, -⟩ := set_
    · exact fun w eq => (Option.some.inj eq).symm
    · exact fun w eq => nomatch eq
  have kept : ∀ w : Watch, w.fd ≠ watch.fd → s.note op watch.fd w.fd = s.added w.fd := by
    intro w differ
    cases op <;> first | rfl | exact update_of_ne differ ..
  refine ⟨fun i w here => ?_, fun i j w w' hi hj eq => ?_⟩
  · obtain ⟨rfl, new⟩ | ⟨other, here⟩ := getElem?_set_some here
    · obtain rfl := held w new
      refine ⟨?_, opened⟩
      obtain ⟨rfl, -⟩ | ⟨-, old, at_, fd⟩ := place
      · exact update_self ..
      · obtain ⟨-, del⟩ | ⟨empty, -⟩ := set_
        · have was := fd ▸ (h.current i old at_).1
          cases op <;> first | exact absurd rfl del | exact was | exact update_self ..
        · rw [empty] at new
          cases new
    · have was := h.current i w here
      exact ⟨(kept w (others i w other here)).trans was.1, was.2⟩
  · obtain ⟨here, new⟩ | ⟨other, old⟩ := getElem?_set_some hi <;>
      obtain ⟨here', new'⟩ | ⟨other', old'⟩ := getElem?_set_some hj
    · exact here.trans here'.symm
    · exact absurd (held w new ▸ eq.symm) (others j w' other' old')
    · exact absurd (held w' new' ▸ eq) (others i w other old)
    · exact h.once i j w w' old old' eq

theorem Epoll.Inv.ctl (h : s.Inv) (op : EpollOp) (watch : Watch) (mem : Bool) :
    (s.ctl op watch mem).2.Inv := by
  unfold Epoll.ctl
  split_ifs with closed
  · exact h
  · exact h
  · exact h
  · cases change : changeWatches s.watches op watch with
    | error e => exact ⟨h.current, h.once⟩
    | ok slots =>
      have opened : (s.table watch.fd).isSome :=
        isSome_iff_ne_none.mpr fun eq => closed (.inr (by simp [eq]))
      exact h.change opened change

theorem Epoll.Inv.put (h : s.Inv) {fd : Int} (target : Option Target)
    (apart : ∀ w : Watch, s.added w.fd = true → (s.table w.fd).isSome → w.fd ≠ fd) :
    (s.put fd target).Inv := by
  by_cases self : fd = s.ep
  · have empty : (s.put fd target).slots = none := if_pos self
    exact ⟨fun i w here => absurd here (watches_none empty i),
      fun i j w w' hi _ _ => absurd hi (watches_none empty i)⟩
  · have same : (s.put fd target).watches = s.watches := by simp [Epoll.watches, Epoll.put, self]
    refine ⟨fun i w here => ?_, fun i j w w' hi hj eq => h.once i j w w' (same ▸ hi) (same ▸ hj) eq⟩
    obtain ⟨was, opened⟩ := h.current i w (same ▸ here)
    have ne := apart w was opened
    simpa [Epoll.put, self, update_of_ne ne] using And.intro was opened

theorem Epoll.Inv.step (h : s.Inv) {a : EpollAct} (ok : s.Orderly a) : (s.step a).Inv := by
  cases a with
  | ctl op watch mem => exact h.ctl op watch mem
  | close fd =>
    rw [Epoll.step]
    split_ifs
    · exact h.put none fun w was _ eq => by simp [eq, show s.added fd = false from ok] at was
    · exact h
  | open_ fd target =>
    rw [Epoll.step]
    split_ifs with free
    · exact h.put _ fun w _ opened eq => by simp [eq, isNone_iff_eq_none.mp free] at opened
    · exact h
  | dup2 old new =>
    rw [Epoll.step]
    split_ifs with none_
    · exact h
    · have off : s.added new = false := ok.resolve_left (not_or.mp none_).2
      exact h.put _ fun w was _ eq => by simp [eq, off] at was

theorem Epoll.Run.inv {ep : Int} {table : Int → Option Target} (run : Run ep table s) : s.Inv := by
  induction run with
  | start =>
    exact ⟨fun i w here => absurd here (watches_none rfl i),
      fun i j w w' hi _ _ => absurd hi (watches_none rfl i)⟩
  | step _ ok ih => exact ih.step ok

theorem Epoll.Inv.add_ok (h : s.Inv) (epoll : s.table s.ep = some .epoll)
    (opened : (s.table watch.fd).isSome) (differs : watch.fd ≠ s.ep)
    (fresh : s.added watch.fd = false) (room : none ∈ s.watches) :
    (s.ctl .add watch true).1 = .ok () := by
  have find : epollFindWatch s.watches watch.fd = none := by
    cases found : epollFindWatch s.watches watch.fd with
    | none => rfl
    | some k =>
      obtain ⟨old, at_, same⟩ := epollFindWatch_some found
      have was := (h.current k old at_).1
      rw [same, fresh] at was
      cases was
  have free : (s.watches.findIdx? isNone).isSome := by
    rw [findIdx?_isSome, List.any_eq_true]
    exact ⟨none, room, rfl⟩
  obtain ⟨k, at_⟩ := isSome_iff_exists.mp free
  have ne := isSome_iff_ne_none.mp opened
  simp [Epoll.ctl, epoll, ne, differs, changeWatches, find, at_]

theorem epoll_reports_added {ep : Int} {table : Int → Option Target} (run : Epoll.Run ep table s) :
    (∀ poll n w r, (w, r) ∈ epollSnapshot poll s.table s.watches n → s.added w.fd = true ∧
        ∃ target, s.table w.fd = some target ∧ r = poll target (w.events.truncate 16)) ∧
    ∀ watch : Watch, s.table s.ep = some .epoll → (s.table watch.fd).isSome → watch.fd ≠ s.ep →
      s.added watch.fd = false → none ∈ s.watches → (s.ctl .add watch true).1 = .ok () := by
  refine ⟨fun poll n w r reported => ?_, fun watch epoll opened differs fresh room =>
    run.inv.add_ok epoll opened differs fresh room⟩
  obtain ⟨mem, event⟩ := snapshot_mem reported
  obtain ⟨i, here⟩ := mem_iff_getElem?.mp mem
  obtain ⟨was, opened⟩ := run.inv.current i w here
  obtain ⟨target, at_⟩ := isSome_iff_exists.mp opened
  exact ⟨was, target, at_, event target at_⟩

def twoOpen : Int → Option Target := fun fd =>
  if fd = 3 then some .epoll else if fd = 5 then some (.other 0) else none

def readFive : Watch := ⟨5, 1, 0⟩

/-- The descriptor 5 is removed, closed, opened again and added. -/
theorem epoll_reports_added_again :
    let s := ((((Epoll.mk 3 twoOpen none fun _ => false).step (.ctl .add readFive true)).step
      (.ctl .del readFive true)).step (.close 5)).step (.open_ 5 (.other 1))
    s.added 5 = false ∧ (s.ctl .add readFive true).1 = .ok () := by
  intro s
  have run : Epoll.Run 3 twoOpen s :=
    .step (.step (.step (.step .start trivial) trivial) (show _ = false by decide)) trivial
  exact ⟨by decide, (epoll_reports_added run).2 readFive (by decide) (by decide) (by decide)
    (by decide) (by decide)⟩

/-- A watched descriptor is closed: it is reported, and once its number is used again it cannot be
added. -/
theorem epoll_reports_closed :
    let s := ((Epoll.mk 3 twoOpen none fun _ => false).step (.ctl .add readFive true)).step
      (.close 5)
    let s' := s.step (.open_ 5 (.other 1))
    s.added 5 = false ∧ epollSnapshot (fun _ _ => 0) s.table s.watches 1 = [(readFive, epollErr)] ∧
    s'.added 5 = false ∧ epollSnapshot (fun _ e => e) s'.table s'.watches 1 = [(readFive, 1)] ∧
    (s'.ctl .add readFive true).1 = .error .eexist := by
  decide

end SmallOS.Fd
