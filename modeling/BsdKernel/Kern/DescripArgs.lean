import BsdKernel.Kern.Fdavail
/-!
# Descriptors from user words

`dup`, `dup2`, `close` and `fcntl(F_DUPFD)` of `kern/kern_descrip.c` once more,
now on the words that a user passes. The source compares them as `int`s in one
call and as `u_int`s in another before it indexes `fd_ofiles`, so here an index
is an integer, and one outside of the table ends the call (`Stop.outside`).

Only `dup2` compares as `int`s: `descrip_args` says that the other calls stay
inside the table, and `dup2` as long as its arguments are not negative.
-/

namespace BsdKernel.DescripArgs

open BsdKernel.Lib
open BsdKernel.Descrip (Filedesc Slot State FileId Errno UF_EXCLOSE UF_MAPPED ushort hold closef expand limOf Sized)

/-- `sizeof(struct file *) + sizeof(char)`. -/
def OFILESIZE : Nat := 5

/-- What ends a call before it returns. -/
inductive Stop
  | outside (i : Int)
  | panic
  deriving DecidableEq, Repr

/-- `RLIMIT_NOFILE`, a `quad_t`, and `maxfiles`, an `int`. -/
structure Limits where
  rlim : Int
  maxfiles : Nat
  int : maxfiles < 2 ^ 31

def Limits.lim (l : Limits) : Nat := limOf l.rlim l.maxfiles

/-- `fd_ofiles[i]` and `fd_ofileflags[i]`. -/
def slot (fd : Filedesc) (i : Int) : Except Stop Slot :=
  if h : 0 ≤ i ∧ i < fd.slots.length then .ok (fd.slots.get ⟨i.toNat, by omega⟩) else .error (.outside i)

/-- Assignments to `fd_ofiles[i]` and `fd_ofileflags[i]`. -/
def store (fd : Filedesc) (i : Int) (x : Slot) : Except Stop Filedesc :=
  if 0 ≤ i ∧ i < fd.slots.length then .ok { fd with slots := fd.slots.set i.toNat x } else .error (.outside i)

/-! ## Allocating a descriptor -/

/-- The inner loop of `fdalloc`, for `n` rounds. -/
def scan (fd : Filedesc) (i : Int) : Nat → Except Stop (Option Int)
  | 0 => .ok none
  | n + 1 => do
    let x ← slot fd i
    if x.file = none then .ok (some i) else scan fd (i + 1) n

/-- The table after `MALLOC` of `nfiles * OFILESIZE` bytes, which panics when no
map has room for them. -/
def grow (fd : Filedesc) : Except Stop Filedesc :=
  if (expand fd).slots.length * OFILESIZE < 2 ^ 32 then .ok (expand fd) else .error .panic

def fdallocLoop (want : Int) (lim : Nat) : Nat → Filedesc → Except Stop (Filedesc × Except Errno Int)
  | 0, fd => .ok (fd, .error .EMFILE)
  | fuel + 1, fd => do
    let last : Int := min fd.slots.length lim
    let i := if want < fd.freefile then (fd.freefile : Int) else want
    match ← scan fd i (last - i).toNat with
    | some i => do
      let x ← slot fd i
      let fd ← store fd i { x with flags := 0 }
      .ok ({ fd with
              lastfile := if i > fd.lastfile then ushort i.toNat else fd.lastfile
              freefile := if want ≤ fd.freefile then ushort i.toNat else fd.freefile }, .ok i)
    | none =>
      if fd.slots.length ≥ lim then .ok (fd, .error .EMFILE)
      else do
        let fd ← grow fd
        fdallocLoop want lim fuel fd

def fdalloc (fd : Filedesc) (want : Int) (lim : Nat) : Except Stop (Filedesc × Except Errno Int) :=
  fdallocLoop want lim (lim + 1 - fd.slots.length + 1) fd

/-! ## The calls -/

def finishdup (s : State) (p : Nat) (fd : Filedesc) (old new : Int) : Except Stop (State × Except Errno Nat) := do
  let x ← slot fd old
  let fd ← store fd new ⟨x.file, x.flags &&& ~~~UF_EXCLOSE⟩
  match x.file.bind (hold s.files) with
  | none => .error .panic
  | some files =>
    let fd := { fd with lastfile := if new > fd.lastfile then ushort new.toNat else fd.lastfile }
    .ok ({ s with files := files, procs := s.procs.set p (some fd) }, .ok new.toNat)

/-- `if (fdp->fd_ofileflags[i] & UF_MAPPED) munmapfd(p, i)`. -/
def unmap (fd : Filedesc) (i : Int) : Except Stop Filedesc := do
  let x ← slot fd i
  if x.flags &&& UF_MAPPED != 0 then store fd i { x with flags := x.flags &&& ~~~UF_MAPPED } else .ok fd

def dup2 (s : State) (p : Nat) (fd : Filedesc) (old new : Int) (l : Limits) : Except Stop (State × Except Errno Nat) :=
  if old ≥ fd.slots.length then .ok (s, .error .EBADF)
  else do
    let x ← slot fd old
    if x.file = none ∨ new ≥ l.rlim ∨ new ≥ l.maxfiles then .ok (s, .error .EBADF)
    else if old = new then .ok (s, .ok new.toNat)
    else if new ≥ fd.slots.length then do
      match ← fdalloc fd new l.lim with
      | (fd, .error e) => .ok (s.setFd p fd, .error e)
      | (fd, .ok i) => if new ≠ i then .error .panic else finishdup s p fd old new
    else do
      let y ← slot fd new
      match y.file with
      | none => finishdup s p fd old new
      | some g => do
        let fd ← unmap fd new
        match closef s.files g with
        | none => .error .panic
        | some (files, freed) => finishdup { s with files := files, nfiles := s.nfiles - freed } p fd old new

/-- `dup`, where `next` is the word behind the argument. -/
def dup (s : State) (p : Nat) (fd : Filedesc) (old next : BitVec 32) (l : Limits) : Except Stop (State × Except Errno Nat) :=
  if old &&& ~~~63 ≠ 0 then dup2 s p fd (old &&& 63).toInt next.toInt l
  else if old.toNat ≥ fd.slots.length then .ok (s, .error .EBADF)
  else do
    let x ← slot fd old.toNat
    if x.file = none then .ok (s, .error .EBADF)
    else do
      match ← fdalloc fd 0 l.lim with
      | (fd, .error e) => .ok (s.setFd p fd, .error e)
      | (fd, .ok new) => finishdup s p fd old.toInt new

/-- `fcntl(F_DUPFD)`. -/
def dupfd (s : State) (p : Nat) (fd : Filedesc) (old arg : BitVec 32) (l : Limits) : Except Stop (State × Except Errno Nat) :=
  if old.toNat ≥ fd.slots.length then .ok (s, .error .EBADF)
  else do
    let x ← slot fd old.toInt
    if x.file = none then .ok (s, .error .EBADF)
    else if (arg.toNat : Int) ≥ l.rlim ∨ arg.toNat ≥ l.maxfiles then .ok (s, .error .EINVAL)
    else do
      match ← fdalloc fd arg.toInt l.lim with
      | (fd, .error e) => .ok (s.setFd p fd, .error e)
      | (fd, .ok i) => finishdup s p fd old.toInt i

/-- The loop of `close` over `fd_lastfile`. -/
def lowerLast (fd : Filedesc) : Nat → Except Stop Nat
  | 0 => .ok 0
  | last + 1 => do
    let x ← slot fd (last + 1 : Nat)
    if x.file = none then lowerLast fd last else .ok (last + 1)

def close (s : State) (p : Nat) (fd : Filedesc) (i : BitVec 32) : Except Stop (State × Except Errno Nat) :=
  if i.toNat ≥ fd.slots.length then .ok (s, .error .EBADF)
  else do
    let x ← slot fd i.toInt
    match x.file with
    | none => .ok (s, .error .EBADF)
    | some fp => do
      let fd ← unmap fd i.toInt
      let fd ← store fd i.toInt Slot.zero
      let last ← lowerLast fd fd.lastfile
      let fd := { fd with lastfile := last, freefile := if i.toInt < fd.freefile then ushort i.toNat else fd.freefile }
      match closef s.files fp with
      | none => .error .panic
      | some (files, freed) =>
        .ok ({ files := files, nfiles := s.nfiles - freed, procs := s.procs.set p (some fd) }, .ok 0)

/-- A call with the words that the user passes. -/
inductive Call
  | dup (old next : BitVec 32)
  | dup2 (old new : BitVec 32)
  | dupfd (old arg : BitVec 32)
  | close (i : BitVec 32)
  deriving DecidableEq, Repr

def Call.run (s : State) (p : Nat) (fd : Filedesc) (l : Limits) : Call → Except Stop (State × Except Errno Nat)
  | .dup old next => DescripArgs.dup s p fd old next l
  | .dup2 old new => DescripArgs.dup2 s p fd old.toInt new.toInt l
  | .dupfd old arg => DescripArgs.dupfd s p fd old arg l
  | .close i => DescripArgs.close s p fd i

/-! ## Staying inside the table -/

/-- Nothing outside of the table is touched, and what is returned meets `post`. -/
def Inside {α : Type} (post : α → Prop) : Except Stop α → Prop
  | .ok a => post a
  | .error .panic => True
  | .error (.outside _) => False

section Rules
variable {α β : Type} {post : α → Prop} {r : Except Stop α}

theorem Inside.bind {post' : β → Prop} {f : α → Except Stop β} (h : Inside post r) (hf : ∀ a, post a → Inside post' (f a)) :
    Inside post' (r >>= f) := by
  cases r with
  | ok a => exact hf a h
  | error e =>
    cases e with
    | panic => trivial
    | outside i => exact h

theorem Inside.mono {post' : α → Prop} (h : Inside post r) (hp : ∀ a, post a → post' a) : Inside post' r := by
  cases r with
  | ok a => exact hp a h
  | error e => cases e <;> exact h

theorem Inside.not_outside (h : Inside post r) (i : Int) : r ≠ .error (.outside i) := by
  rintro rfl
  exact h

end Rules

variable {fd : Filedesc} {i : Int}

theorem slot_eq (h₀ : 0 ≤ i) (h : i < fd.slots.length) : ∃ x, slot fd i = .ok x ∧ fd.slots[i.toNat]? = some x := by
  have hlt : i.toNat < fd.slots.length := by omega
  exact ⟨fd.slots.get ⟨i.toNat, hlt⟩, by rw [slot, dif_pos ⟨h₀, h⟩], by simp [hlt]⟩

theorem slot_outside (h : i < 0) : slot fd i = .error (.outside i) := dif_neg (by omega)

theorem slot_inside (h₀ : 0 ≤ i) (h : i < fd.slots.length) : Inside (fun x => fd.slots[i.toNat]? = some x) (slot fd i) := by
  obtain ⟨x, hx, hat⟩ := slot_eq h₀ h
  rw [hx]
  exact hat

theorem store_inside (h₀ : 0 ≤ i) (h : i < fd.slots.length) (x : Slot) :
    Inside (fun fd' => fd' = { fd with slots := fd.slots.set i.toNat x }) (store fd i x) := by
  rw [store, if_pos ⟨h₀, h⟩]
  rfl

theorem scan_inside (n : Nat) (h₀ : 0 ≤ i) (h : n = 0 ∨ i + n ≤ fd.slots.length) :
    Inside (fun r => ∀ j, r = some j → i ≤ j ∧ j < fd.slots.length) (scan fd i n) := by
  induction n generalizing i with
  | zero => simp [scan, Inside]
  | succ n ih =>
    refine (slot_inside h₀ (by omega)).bind fun x _ => ?_
    split
    · rintro j hj
      cases hj
      omega
    · refine (ih (i := i + 1) (by omega) (by omega)).mono fun r hr j hj => ?_
      have := hr j hj
      omega

/-- `fd_nfiles` is an `int`, and `fd_lastfile` a descriptor below it. -/
structure Tabled (fd : Filedesc) : Prop extends Sized fd where
  int : fd.slots.length < 2 ^ 31

/-- The table that `fdalloc` leaves is no smaller, it has the descriptor that is
returned, and `fd_lastfile` is still inside. -/
structure Allocated (fd : Filedesc) (r : Filedesc × Except Errno Int) : Prop where
  length : fd.slots.length ≤ r.1.slots.length
  found : ∀ i, r.2 = .ok i → 0 ≤ i ∧ i < r.1.slots.length
  tabled : Tabled fd → Tabled r.1

theorem grow_inside (fd : Filedesc) : Inside (fun fd' => fd' = expand fd ∧ fd'.slots.length < 2 ^ 31) (grow fd) := by
  rw [grow]
  split
  · rename_i hsize
    unfold OFILESIZE at hsize
    exact ⟨rfl, by omega⟩
  · trivial

theorem fdallocLoop_inside {want : Int} (hwant : 0 ≤ want) (lim fuel : Nat) :
    Inside (Allocated fd) (fdallocLoop want lim fuel fd) := by
  induction fuel generalizing fd with
  | zero => exact ⟨Nat.le_refl _, fun i hi => by simp at hi, id⟩
  | succ fuel ih =>
    rw [fdallocLoop]
    refine (scan_inside _ (by split <;> omega) (by split <;> omega)).bind fun found hfound => ?_
    cases found with
    | some i =>
      have hi := hfound i rfl
      have hi₀ : 0 ≤ i := by
        have := hi.1
        split at this <;> omega
      refine (slot_inside hi₀ hi.2).bind fun x _ => (store_inside hi₀ hi.2 _).bind fun fd' hfd' => ?_
      subst hfd'
      refine ⟨by simp, fun j hj => ?_, fun hs => ⟨⟨?_, by simpa using hs.size⟩, by simpa using hs.int⟩⟩
      · cases hj
        simpa using ⟨hi₀, hi.2⟩
      · have hlast := hs.last
        have hshort : ushort i.toNat ≤ i.toNat := Nat.mod_le _ _
        simp only [List.length_set]
        split <;> omega
    | none =>
      simp only
      split
      · exact ⟨Nat.le_refl _, fun i hi => by simp at hi, id⟩
      · refine (grow_inside fd).bind fun fd' ⟨hexp, hint⟩ => ?_
        subst hexp
        refine ih.mono fun r hr =>
          ⟨Nat.le_trans ?_ hr.length, hr.found, fun hs => hr.tabled ⟨Descrip.expand_sized hs.toSized, hint⟩⟩
        rw [Descrip.expand_length]
        split <;> omega

/-! ## The calls stay inside -/

/-- Every table is one. -/
def Sizes (s : State) : Prop := ∀ fd, some fd ∈ s.procs → Tabled fd

section Calls
variable {s : State} {p : Nat} {l : Limits} {old new : Int}

theorem Sizes.of_fdOf (h : Sizes s) (hp : s.fdOf p = some fd) : Tabled fd :=
  h fd (List.mem_of_getElem? (Descrip.procs_of_fdOf hp))

theorem Sizes.set (h : Sizes s) (hfd : Tabled fd) {files : List (Option Int)} {nfiles : Int} :
    Sizes ⟨files, nfiles, s.procs.set p (some fd)⟩ := by
  intro fd' hfd'
  rcases List.mem_or_eq_of_mem_set hfd' with hmem | he
  · exact h fd' hmem
  · exact Option.some.inj he ▸ hfd

theorem finishdup_inside (hs : Sizes s) (hfd : Tabled fd) (ho : 0 ≤ old ∧ old < fd.slots.length)
    (hn : 0 ≤ new ∧ new < fd.slots.length) : Inside (fun r => Sizes r.1) (finishdup s p fd old new) := by
  refine (slot_inside ho.1 ho.2).bind fun x _ => (store_inside hn.1 hn.2 _).bind fun fd' hfd' => ?_
  subst hfd'
  split
  · trivial
  · refine hs.set ⟨⟨?_, by simpa using hfd.size⟩, by simpa using hfd.int⟩
    have hlast := hfd.last
    have hshort : ushort new.toNat ≤ new.toNat := Nat.mod_le _ _
    simp only [List.length_set]
    split <;> omega

theorem unmap_inside (h : 0 ≤ i ∧ i < fd.slots.length) :
    Inside (fun fd' => fd'.slots.length = fd.slots.length ∧ fd'.lastfile = fd.lastfile) (unmap fd i) := by
  refine (slot_inside h.1 h.2).bind fun x _ => ?_
  split
  · refine (store_inside h.1 h.2 _).mono fun fd' hfd' => ?_
    subst hfd'
    exact ⟨by simp, rfl⟩
  · exact ⟨rfl, rfl⟩

theorem tabled_of_eq {fd' : Filedesc} (h : Tabled fd) (he : fd'.slots.length = fd.slots.length ∧ fd'.lastfile = fd.lastfile) :
    Tabled fd' :=
  ⟨⟨by rw [he.1, he.2]; exact h.last, by rw [he.1]; exact h.size⟩, by rw [he.1]; exact h.int⟩

theorem allocDup_inside (hs : Sizes s) (hfd : Tabled fd) (ho : 0 ≤ old ∧ old < fd.slots.length) {want : Int}
    (hwant : 0 ≤ want) {f : Filedesc × Except Errno Int → Except Stop (State × Except Errno Nat)}
    (herr : ∀ fd' e, f (fd', .error e) = .ok (s.setFd p fd', .error e))
    (hok : ∀ fd' i, f (fd', .ok i) = .error .panic ∨ f (fd', .ok i) = finishdup s p fd' old i) :
    Inside (fun r => Sizes r.1) (fdalloc fd want l.lim >>= f) := by
  refine (fdallocLoop_inside hwant l.lim _).bind fun r hr => ?_
  obtain ⟨fd', e | i⟩ := r
  · rw [herr]
    exact hs.set (hr.tabled hfd)
  · rcases hok fd' i with hpanic | hdup
    · rw [hpanic]
      trivial
    · rw [hdup]
      have hlen := hr.length
      exact finishdup_inside hs (hr.tabled hfd) ⟨ho.1, by simp only at hlen; omega⟩ (hr.found i rfl)

theorem dup2_inside (hs : Sizes s) (hfd : Tabled fd) (ho : 0 ≤ old)
    (hn : 0 ≤ new ∨ l.rlim ≤ new ∨ fd.fileAt old.toNat = none) : Inside (fun r => Sizes r.1) (dup2 s p fd old new l) := by
  rw [dup2]
  split
  · exact hs
  · rename_i hlt
    refine (slot_inside ho (by omega)).bind fun x hx => ?_
    split
    · exact hs
    · rename_i hargs
      simp only [not_or] at hargs
      have hn₀ : 0 ≤ new := by
        rcases hn with hn | hn | hn
        · exact hn
        · exact absurd hn hargs.2.1
        · exact absurd (by simpa [Filedesc.fileAt, hx] using hn) hargs.1
      split
      · exact hs
      · split
        · refine allocDup_inside hs hfd ⟨ho, by omega⟩ hn₀ (fun _ _ => rfl) fun fd' i => ?_
          simp only
          split
          · exact .inl rfl
          · rename_i hi
            rw [not_not.1 hi]
            exact .inr rfl
        · rename_i hge
          refine (slot_inside hn₀ (by omega)).bind fun y hy => ?_
          split
          · exact finishdup_inside hs hfd ⟨ho, by omega⟩ ⟨hn₀, by omega⟩
          · refine (unmap_inside ⟨hn₀, by omega⟩).bind fun fd' hfd' => ?_
            split
            · trivial
            · refine finishdup_inside (s := { s with files := _, nfiles := _ }) hs (tabled_of_eq hfd hfd') ⟨ho, ?_⟩ ⟨hn₀, ?_⟩
              · rw [hfd'.1]
                omega
              · rw [hfd'.1]
                omega

theorem lowerLast_inside (n : Nat) (h : n < fd.slots.length) : Inside (· ≤ n) (lowerLast fd n) := by
  induction n with
  | zero => exact Nat.le_refl 0
  | succ n ih =>
    refine (slot_inside (by omega) (by omega)).bind fun x _ => ?_
    split
    · exact (ih (by omega)).mono fun k hk => Nat.le_succ_of_le hk
    · exact Nat.le_refl _

theorem toInt_of_lt {w : BitVec 32} {n : Nat} (h : w.toNat < n) (hn : n < 2 ^ 31) : w.toInt = w.toNat :=
  BitVec.toInt_eq_toNat_of_lt (by omega)

theorem toNat_and_63 (w : BitVec 32) : (w &&& 63).toNat = w.toNat % 64 := by
  rw [BitVec.toNat_and]
  exact Nat.and_two_pow_sub_one_eq_mod w.toNat 6

theorem toInt_and_63 (w : BitVec 32) : (w &&& 63).toInt = (w.toNat % 64 : Nat) := by
  have hlt : (w &&& 63).toNat < 64 := by
    rw [toNat_and_63]
    exact Nat.mod_lt _ (by decide)
  rw [toInt_of_lt hlt (by decide), toNat_and_63]

theorem dup_inside (hs : Sizes s) (hfd : Tabled fd) {w next : BitVec 32}
    (hn : w &&& ~~~63 ≠ 0 → 0 ≤ next.toInt ∨ l.rlim ≤ next.toInt ∨ fd.fileAt (w &&& 63).toInt.toNat = none) :
    Inside (fun r => Sizes r.1) (dup s p fd w next l) := by
  rw [dup]
  split
  · rename_i hw
    exact dup2_inside hs hfd (by rw [toInt_and_63]; omega) (hn hw)
  · split
    · exact hs
    · rename_i hlt
      have hw := toInt_of_lt (Nat.lt_of_not_le hlt) hfd.int
      refine (slot_inside (by omega) (by omega)).bind fun x _ => ?_
      split
      · exact hs
      · exact allocDup_inside hs hfd ⟨by omega, by omega⟩ (Int.le_refl 0) (fun _ _ => rfl) fun _ _ => .inr rfl

theorem dupfd_inside (hs : Sizes s) (hfd : Tabled fd) (w arg : BitVec 32) :
    Inside (fun r => Sizes r.1) (dupfd s p fd w arg l) := by
  rw [dupfd]
  split
  · exact hs
  · rename_i hlt
    have hw := toInt_of_lt (Nat.lt_of_not_le hlt) hfd.int
    refine (slot_inside (by omega) (by omega)).bind fun x _ => ?_
    split
    · exact hs
    · split
      · exact hs
      · rename_i harg
        -- the comparison as `u_int` leaves no negative `int`
        have harg' := toInt_of_lt (w := arg) (n := l.maxfiles) (by omega) l.int
        exact allocDup_inside hs hfd ⟨by omega, by omega⟩ (by omega) (fun _ _ => rfl) fun _ _ => .inr rfl

theorem close_inside (hs : Sizes s) (hfd : Tabled fd) (w : BitVec 32) :
    Inside (fun r => Sizes r.1) (close s p fd w) := by
  rw [close]
  split
  · exact hs
  · rename_i hlt
    have hw := toInt_of_lt (Nat.lt_of_not_le hlt) hfd.int
    have hi : 0 ≤ w.toInt ∧ w.toInt < fd.slots.length := by omega
    refine (slot_inside hi.1 hi.2).bind fun x _ => ?_
    split
    · exact hs
    · rename_i fp _
      refine (unmap_inside hi).bind fun fd₁ h₁ => ?_
      refine (store_inside hi.1 (by rw [h₁.1]; exact hi.2) _).bind fun fd₂ h₂ => ?_
      have h₂' : fd₂.slots.length = fd.slots.length ∧ fd₂.lastfile = fd.lastfile := by
        subst h₂
        simpa using h₁
      have hfd₂ := tabled_of_eq hfd h₂'
      refine (lowerLast_inside _ hfd₂.last).bind fun last hlast => ?_
      have hlower : ∀ free, Tabled { fd₂ with lastfile := last, freefile := free } := fun free =>
        ⟨⟨Nat.lt_of_le_of_lt hlast hfd₂.last, hfd₂.size⟩, hfd₂.int⟩
      cases closef s.files fp with
      | none => trivial
      | some r => exact hs.set (hlower _)

end Calls

/-! ## What is refused -/

/-- An open descriptor. -/
def Open (fd : Filedesc) (i : Int) : Prop := 0 ≤ i ∧ fd.fileAt i.toNat ≠ none

/-- A descriptor in `[0, min(RLIMIT_NOFILE, maxfiles))`. -/
def Target (l : Limits) (i : Int) : Prop := 0 ≤ i ∧ i < l.rlim ∧ i < l.maxfiles

/-- An argument names no open descriptor, or no possible target. -/
def Call.refused (fd : Filedesc) (l : Limits) : Call → Prop
  | .dup old next =>
    if old &&& ~~~63 ≠ 0 then ¬Open fd (old &&& 63).toInt ∨ ¬Target l next.toInt else ¬Open fd old.toInt
  | .dup2 old new => ¬Open fd old.toInt ∨ ¬Target l new.toInt
  | .dupfd old arg => ¬Open fd old.toInt ∨ ¬Target l arg.toInt
  | .close i => ¬Open fd i.toInt

/-- The call stays inside the table, and fails without a change where it should. -/
def Guarded (s : State) (p : Nat) (fd : Filedesc) (l : Limits) (c : Call) : Prop :=
  (∀ i, c.run s p fd l ≠ .error (.outside i)) ∧
    (c.refused fd l → c.run s p fd l = .ok (s, .error .EBADF) ∨ c.run s p fd l = .ok (s, .error .EINVAL))

/-- `dup2` does not get to a negative descriptor `new`. -/
def Checked (fd : Filedesc) (l : Limits) (old new : Int) : Prop :=
  0 ≤ old ∧ (0 ≤ new ∨ l.rlim ≤ new ∨ fd.fileAt old.toNat = none)

/-- The arguments that `dup2` checks well enough, and all of the other calls. -/
def Call.checked (fd : Filedesc) (l : Limits) : Call → Prop
  | .dup old next => old &&& ~~~63 ≠ 0 → Checked fd l (old &&& 63).toInt next.toInt
  | .dup2 old new => Checked fd l old.toInt new.toInt
  | .dupfd _ _ | .close _ => True

section Refused
variable {s : State} {p : Nat} {l : Limits}

theorem slot_none (h₀ : 0 ≤ i) (h : i < fd.slots.length) (hn : fd.fileAt i.toNat = none) :
    ∃ x, slot fd i = .ok x ∧ x.file = none := by
  obtain ⟨x, hx, hat⟩ := slot_eq h₀ h
  exact ⟨x, hx, by simpa [Filedesc.fileAt, hat] using hn⟩

theorem slot_some (h₀ : 0 ≤ i) (hn : fd.fileAt i.toNat ≠ none) : i < fd.slots.length ∧ ∃ x, slot fd i = .ok x ∧ x.file ≠ none := by
  obtain ⟨f, hf⟩ := Option.ne_none_iff_exists'.1 hn
  have hlt := Descrip.lt_of_fileAt hf
  obtain ⟨x, hx, hat⟩ := slot_eq h₀ (by omega : i < fd.slots.length)
  refine ⟨by omega, x, hx, ?_⟩
  simpa [Filedesc.fileAt, hat] using hn

theorem dup2_refused {old new : Int} (hc : Checked fd l old new) (h : ¬Open fd old ∨ ¬Target l new) :
    dup2 s p fd old new l = .ok (s, .error .EBADF) := by
  rw [dup2]
  split
  · rfl
  · rename_i hlt
    by_cases hn : fd.fileAt old.toNat = none
    · obtain ⟨x, hx, hfile⟩ := slot_none hc.1 (by omega) hn
      simp [hx, hfile, bind, Except.bind]
    · obtain ⟨-, x, hx, -⟩ := slot_some hc.1 hn
      have hnew : new ≥ l.rlim ∨ new ≥ l.maxfiles := by
        rcases h with h | h
        · exact absurd ⟨hc.1, hn⟩ h
        · rcases hc.2 with h₀ | h₁ | h₂
          · by_contra hno
            exact h ⟨h₀, by omega, by omega⟩
          · exact .inl h₁
          · exact absurd h₂ hn
      simp only [hx, bind, Except.bind]
      exact if_pos (.inr hnew)

theorem refused_of_not_open {w : BitVec 32} (hfd : Tabled fd) (hlt : w.toNat < fd.slots.length)
    (h : ¬Open fd w.toInt) : ∃ x, slot fd w.toInt = .ok x ∧ x.file = none := by
  have hw := toInt_of_lt hlt hfd.int
  exact slot_none (by omega) (by omega) (not_not.1 fun hn => h ⟨by omega, hn⟩)

/-- What the checked calls refuse, they refuse without a change. -/
theorem run_refused (hfd : Tabled fd) {c : Call} (hc : c.checked fd l) (h : c.refused fd l) :
    c.run s p fd l = .ok (s, .error .EBADF) ∨ c.run s p fd l = .ok (s, .error .EINVAL) := by
  cases c with
  | dup w next =>
    refine .inl ?_
    simp only [Call.run, dup, Call.refused, Call.checked] at hc h ⊢
    split
    · rename_i hw
      rw [if_pos hw] at h
      exact dup2_refused (hc hw) h
    · rename_i hw
      rw [if_neg hw] at h
      split
      · rfl
      · rename_i hlt
        obtain ⟨x, hx, hfile⟩ := refused_of_not_open hfd (Nat.lt_of_not_le hlt) h
        rw [← toInt_of_lt (Nat.lt_of_not_le hlt) hfd.int, hx]
        simp [hfile, bind, Except.bind]
  | dup2 old new => exact .inl (dup2_refused hc h)
  | dupfd w arg =>
    simp only [Call.run, dupfd, Call.refused] at h ⊢
    split
    · exact .inl rfl
    · rename_i hlt
      have hw := toInt_of_lt (Nat.lt_of_not_le hlt) hfd.int
      obtain ⟨x, hx, hat⟩ := @slot_eq fd w.toInt (by omega) (by omega)
      rw [hx]
      simp only [bind, Except.bind]
      split
      · exact .inl rfl
      · rename_i hfile
        refine .inr (if_pos ?_)
        by_contra hno
        have harg := toInt_of_lt (w := arg) (n := l.maxfiles) (by omega) l.int
        have hopen : Open fd w.toInt := ⟨by omega, by simpa [Filedesc.fileAt, hat] using hfile⟩
        exact h.elim (absurd hopen) fun ht => ht ⟨by omega, by omega, by omega⟩
  | close w =>
    refine .inl ?_
    simp only [Call.run, close, Call.refused] at h ⊢
    split
    · rfl
    · rename_i hlt
      obtain ⟨x, hx, hfile⟩ := refused_of_not_open hfd (Nat.lt_of_not_le hlt) h
      simp [hx, hfile, bind, Except.bind]

end Refused

/-! ## What is not checked -/

section Outside
variable {s : State} {p : Nat} {l : Limits}

theorem dup2_outside {old new : Int} (h : ¬Checked fd l old new) : ∃ i, dup2 s p fd old new l = .error (.outside i) := by
  by_cases ho : 0 ≤ old
  · simp only [Checked, ho, true_and, not_or] at h
    obtain ⟨hn, hr, hopen⟩ := h
    obtain ⟨hlt, x, hx, hfile⟩ := slot_some ho hopen
    refine ⟨new, ?_⟩
    rw [dup2, if_neg (by omega), hx]
    simp only [bind, Except.bind]
    rw [if_neg (by simp only [hfile, false_or]; omega), if_neg (by omega), if_neg (by omega), slot_outside (by omega)]
  · exact ⟨old, by rw [dup2, if_neg (by omega), slot_outside (by omega)]; rfl⟩

theorem call_outside {c : Call} (h : ¬c.checked fd l) : ∃ i, c.run s p fd l = .error (.outside i) := by
  cases c with
  | dup w next =>
    obtain ⟨hw, hc⟩ := Classical.not_imp.1 h
    obtain ⟨i, hi⟩ := dup2_outside (s := s) (p := p) hc
    exact ⟨i, by rw [Call.run, dup, if_pos hw, hi]⟩
  | dup2 old new => exact dup2_outside h
  | dupfd _ _ => exact absurd trivial h
  | close _ => exact absurd trivial h

theorem call_inside (hs : Sizes s) (hfd : Tabled fd) {c : Call} (hc : c.checked fd l) :
    Inside (fun r => Sizes r.1) (c.run s p fd l) := by
  cases c with
  | dup w next => exact dup_inside hs hfd fun hw => (hc hw).2
  | dup2 old new => exact dup2_inside hs hfd hc.1 hc.2
  | dupfd w arg => exact dupfd_inside hs hfd w arg
  | close w => exact close_inside hs hfd w

theorem guarded_iff (hs : Sizes s) (hp : s.fdOf p = some fd) (c : Call) : Guarded s p fd l c ↔ c.checked fd l := by
  have hfd := hs.of_fdOf hp
  constructor
  · intro h
    by_contra hc
    obtain ⟨i, hi⟩ := call_outside (s := s) (p := p) hc
    exact h.1 i hi
  · exact fun hc => ⟨(call_inside hs hfd hc).not_outside, run_refused hfd hc⟩

end Outside

/-! ## The calls on numbers -/

/-- `none` of a call of `Descrip` is a panic. -/
def ofCall : Option (State × Except Errno Nat) → Except Stop (State × Except Errno Nat)
  | none => .error .panic
  | some r => .ok r


/-! ## Runs -/

/-- A call with user words, and what else changes tables: an `open`, a received
file, `fork` and `exit`. -/
inductive Event
  | call (c : Call)
  | falloc
  | receive (fp : FileId)
  | fdcopy
  | fdfree
  deriving DecidableEq, Repr

/-- `falloc`. -/
def falloc (s : State) (p : Nat) (fd : Filedesc) (l : Limits) : Except Stop (State × Except Errno Nat) := do
  match ← fdalloc fd 0 l.lim with
  | (fd, .error e) => .ok (s.setFd p fd, .error e)
  | (fd, .ok i) =>
    if s.nfiles ≥ l.maxfiles then .ok (s.setFd p fd, .error .ENFILE)
    else do
      let x ← slot fd i
      let fd ← store fd i { x with file := some s.files.length }
      .ok ({ files := s.files ++ [some 1], nfiles := s.nfiles + 1, procs := s.procs.set p (some fd) }, .ok i.toNat)

/-- The loop of `unp_externalize`, for one file. -/
def receive (s : State) (p : Nat) (fd : Filedesc) (l : Limits) (fp : FileId) : Except Stop (State × Except Errno Nat) := do
  match ← fdalloc fd 0 l.lim with
  | (_, .error _) => .error .panic
  | (fd, .ok i) => do
    let x ← slot fd i
    let fd ← store fd i { x with file := some fp }
    .ok (s.setFd p fd, .ok i.toNat)

def Event.run (s : State) (p : Nat) (fd : Filedesc) (l : Limits) : Event → Except Stop (State × Except Errno Nat)
  | .call c => c.run s p fd l
  | .falloc => DescripArgs.falloc s p fd l
  | .receive fp => DescripArgs.receive s p fd l fp
  | .fdcopy => ofCall (Descrip.fdcopy s fd)
  | .fdfree => ofCall (Descrip.fdfree s p fd)

/-- The system after an event with these limits, as long as no call has ended early. -/
def step : Option State → Nat × Limits × Event → Option State
  | none, _ => none
  | some s, (p, l, e) =>
    match s.fdOf p with
    | none => some s
    | some fd =>
      match e.run s p fd l with
      | .ok r => some r.1
      | .error _ => none

section Runs
variable {s : State} {p : Nat} {l : Limits}

theorem store_inside_tabled (hfd : Tabled fd) (hi : 0 ≤ i ∧ i < fd.slots.length) (x : Slot) :
    Inside Tabled (store fd i x) := by
  refine (store_inside hi.1 hi.2 x).mono fun fd' hfd' => ?_
  subst hfd'
  exact tabled_of_eq hfd ⟨by simp, rfl⟩

theorem falloc_inside (hs : Sizes s) (hfd : Tabled fd) : Inside (fun r => Sizes r.1) (falloc s p fd l) := by
  refine (fdallocLoop_inside (Int.le_refl 0) l.lim _).bind fun r hr => ?_
  obtain ⟨fd', e | i⟩ := r
  · exact hs.set (hr.tabled hfd)
  · have hi := hr.found i rfl
    simp only
    split
    · exact hs.set (hr.tabled hfd)
    · refine (slot_inside hi.1 hi.2).bind fun x _ => ?_
      exact (store_inside_tabled (hr.tabled hfd) hi _).bind fun fd₂ h₂ => hs.set h₂

theorem receive_inside (hs : Sizes s) (hfd : Tabled fd) (fp : FileId) :
    Inside (fun r => Sizes r.1) (receive s p fd l fp) := by
  refine (fdallocLoop_inside (Int.le_refl 0) l.lim _).bind fun r hr => ?_
  obtain ⟨fd', e | i⟩ := r
  · trivial
  · have hi := hr.found i rfl
    refine (slot_inside hi.1 hi.2).bind fun x _ => ?_
    exact (store_inside_tabled (hr.tabled hfd) hi _).bind fun fd₂ h₂ => hs.set h₂

theorem fdcopy_inside (hs : Sizes s) (hfd : Tabled fd) : Inside (fun r => Sizes r.1) (ofCall (Descrip.fdcopy s fd)) := by
  rw [Descrip.fdcopy]
  cases (Descrip.copyTable fd).openFiles.foldlM hold s.files with
  | none => trivial
  | some files =>
    intro fd' hfd'
    rcases List.mem_append.1 hfd' with hmem | hmem
    · exact hs fd' hmem
    · obtain rfl : fd' = Descrip.copyTable fd := by simpa using hmem
      refine ⟨Descrip.copyTable_sized hfd.toSized, ?_⟩
      have := hfd.int
      simp only [Descrip.copyTable, List.length_take]
      omega

theorem fdfree_inside (hs : Sizes s) (hfd : Tabled fd) :
    Inside (fun r => Sizes r.1) (ofCall (Descrip.fdfree s p fd)) := by
  rw [Descrip.fdfree]
  split
  · have hfd' : Tabled { fd with refcnt := fd.refcnt - 1 } := tabled_of_eq hfd ⟨rfl, rfl⟩
    exact hs.set hfd'
  · cases Descrip.closeAll s.files s.nfiles fd.openFiles with
    | none => trivial
    | some r => exact fun fd' hfd' => (List.mem_or_eq_of_mem_set hfd').elim (hs fd') fun he => by cases he

/-- A step leaves tables. -/
theorem step_sizes {t : Option State} (h : ∀ s, t = some s → Sizes s) (a : Nat × Limits × Event) :
    ∀ s, step t a = some s → Sizes s := by
  obtain ⟨p, l, e⟩ := a
  intro s' hs'
  cases t with
  | none => cases hs'
  | some s =>
    have hs := h s rfl
    simp only [step] at hs'
    cases hp : s.fdOf p with
    | none =>
      rw [hp] at hs'
      cases hs'
      exact hs
    | some fd =>
      have hfd := hs.of_fdOf hp
      have hin : Inside (fun r => Sizes r.1) (e.run s p fd l) ∨ ∃ i, e.run s p fd l = .error (.outside i) := by
        cases e with
        | call c =>
          by_cases hc : c.checked fd l
          · exact .inl (call_inside hs hfd hc)
          · exact .inr (call_outside hc)
        | falloc => exact .inl (falloc_inside hs hfd)
        | receive fp => exact .inl (receive_inside hs hfd fp)
        | fdcopy => exact .inl (fdcopy_inside hs hfd)
        | fdfree => exact .inl (fdfree_inside hs hfd)
      rw [hp] at hs'
      simp only at hs'
      cases hr : e.run s p fd l with
      | error _ =>
        rw [hr] at hs'
        cases hs'
      | ok r =>
        rw [hr] at hs' hin
        cases hs'
        exact hin.resolve_right (by simp)

/-- In every state that the system reaches, whatever words users passed before: a
call stays inside the table and refuses what it should, if and only if it is not
a `dup2` (or a `dup` of 64 and more, which is one) that gets to a negative
descriptor. -/
theorem descrip_args (events : List (Nat × Limits × Event)) (s : State)
    (hs : some s ∈ states step (some Descrip.init) events) (p : Nat) (fd : Filedesc) (hp : s.fdOf p = some fd)
    (l : Limits) (c : Call) : Guarded s p fd l c ↔ c.checked fd l := by
  have hinit : Sizes Descrip.init := fun fd hfd => by
    obtain rfl := by simpa [Descrip.init] using hfd
    exact ⟨⟨by decide, .inl (by decide)⟩, by decide⟩
  have hall : ∀ t ∈ states step (some Descrip.init) events, ∀ s, t = some s → Sizes s :=
    states_of_along (fun _ a hst _ => step_sizes hst a) (fun s hs => Option.some.inj hs ▸ hinit)
      (@along_of_forall _ _ step (fun _ _ => True) (fun _ _ => trivial) _ events)
  exact guarded_iff (hall _ hs s rfl) hp c

/-- Limits of a small system. -/
def small : Limits := ⟨64, 200, by decide⟩

/-- One open file, at descriptor zero. -/
def opened : List (Nat × Limits × Event) := [(0, small, .falloc)]

/-- The table with that file. -/
def openedTable : Filedesc := ⟨(List.replicate 20 Slot.zero).set 0 ⟨some 0, 0⟩, 0, 0, 1⟩

theorem opened_final : final step (some Descrip.init) opened = some ⟨[some 1], 1, [some openedTable]⟩ := by decide +kernel

/-- The words `0` and `3` name an open descriptor and a possible target. -/
theorem descrip_args_small : Guarded ⟨[some 1], 1, [some openedTable]⟩ 0 openedTable small (.dup2 0 3) := by
  have hmem := final_mem_states step (some Descrip.init) opened
  rw [opened_final] at hmem
  exact (descrip_args opened _ hmem 0 openedTable rfl small (.dup2 0 3)).2 ⟨by decide, .inl (by decide)⟩

/-- After one `open`, `dup2(-1, 3)` reads in front of the table, and so do
`dup2(0, -5)` and `dup(64)` with `-5` behind it. -/
theorem dup2_negative :
    ∃ s fd, some s ∈ states step (some Descrip.init) opened ∧ s.fdOf 0 = some fd ∧
      Call.run s 0 fd small (.dup2 (-1) 3) = .error (.outside (-1)) ∧
      Call.run s 0 fd small (.dup2 0 (-5)) = .error (.outside (-5)) ∧
      Call.run s 0 fd small (.dup 64 (-5)) = .error (.outside (-5)) ∧
      ¬Guarded s 0 fd small (.dup2 (-1) 3) := by
  have hmem := final_mem_states step (some Descrip.init) opened
  rw [opened_final] at hmem
  have hout : Call.run ⟨[some 1], 1, [some openedTable]⟩ 0 openedTable small (.dup2 (-1) 3) = .error (.outside (-1)) := rfl
  exact ⟨_, openedTable, hmem, rfl, hout, rfl, rfl, fun h => h.1 (-1) hout⟩

end Runs

end BsdKernel.DescripArgs
