import BsdKernel.Kern.DescripRuns
import Mathlib.Data.Nat.Count
/-!
# Descriptors for files that are passed

`fdavail` of `kern/kern_descrip.c` and `unp_externalize` of
`kern/uipc_usrreq.c`, which asks `fdavail` for as many descriptors as a message
has files, and panics if `fdalloc` then fails. `fdavail` counts the unused slots
of the whole table, `fdalloc` only gives those below the limit: after a process
has lowered its limit below `fd_nfiles` the two disagree
(`externalize_panics`). `fdavail_runs` says when they agree.

What a message counts, `f_msgcount` and `unp_rights`, is left out.
-/

namespace BsdKernel.Descrip

open BsdKernel.Lib

/-- `min((int)rlim_cur, maxfiles)`, where `rlim_cur` is a `quad_t` and `min`
compares `u_int`s. -/
def limOf (rlim : Int) (maxfiles : Nat) : Nat := min (rlim % 2 ^ 32).toNat maxfiles

/-- The loop of `fdavail` over the slots from `fd_freefile` on. -/
def availLoop : List Slot → Int → Bool
  | [], _ => false
  | slot :: slots, n =>
    if slot.file = none then if n - 1 ≤ 0 then true else availLoop slots (n - 1) else availLoop slots n

def fdavail (fd : Filedesc) (n : Int) (lim : Nat) : Bool :=
  let i : Int := lim - fd.slots.length
  if i > 0 ∧ n - i ≤ 0 then true
  else availLoop (fd.slots.drop fd.freefile) (if i > 0 then n - i else n)

/-- `fd_ofiles[i] = fp`. -/
def Filedesc.store (fd : Filedesc) (i : Nat) (fp : FileId) : Filedesc :=
  { fd with slots := fd.slots.modify i ({ · with file := some fp }) }

/-- The loop of `unp_externalize` that gives each file a descriptor, and the
descriptors; `none` is its panic. -/
def install (fd : Filedesc) (lim : Nat) : List FileId → Option (Filedesc × List Nat)
  | [] => some (fd, [])
  | fp :: rights =>
    match fdalloc fd 0 lim with
    | (_, .error _) => none
    | (fd, .ok f) => (install (fd.store f fp) lim rights).map fun (fd, fds) => (fd, f :: fds)

/-- `unp_externalize`: the descriptors, or no descriptors for `EMSGSIZE`. -/
def externalize (fd : Filedesc) (lim : Nat) (rights : List FileId) : Option (Filedesc × Option (List Nat)) :=
  if fdavail fd rights.length lim then (install fd lim rights).map fun (fd, fds) => (fd, some fds)
  else some (fd, none)

/-! ## Counting -/

/-- The unused descriptors below a limit. -/
def Filedesc.free (fd : Filedesc) (lim : Nat) : Nat := Nat.count (fun i => fd.fileAt i = none) lim

variable {fd : Filedesc}

theorem free_add (fd : Filedesc) (a b : Nat) :
    fd.free (a + b) = fd.free a + Nat.count (fun i => fd.fileAt (a + i) = none) b := Nat.count_add _ _ _

theorem free_above (fd : Filedesc) (k : Nat) : fd.free (fd.slots.length + k) = fd.free fd.slots.length + k := by
  rw [free_add, Nat.count_iff_forall.2 fun i _ => fileAt_of_ge (Nat.le_add_right _ i)]

theorem count_slots (slots : List Slot) :
    Nat.count (fun i => (slots[i]?).bind (·.file) = none) slots.length = slots.countP (·.file = none) := by
  induction slots with
  | nil => simp
  | cons slot slots ih =>
    rw [List.length_cons, Nat.count_succ', List.countP_cons]
    simp only [List.getElem?_cons_succ, List.getElem?_cons_zero, Option.bind_some, decide_eq_true_eq]
    rw [ih]

theorem free_length (h : Hinted fd) : fd.free fd.slots.length = (fd.slots.drop fd.freefile).countP (·.file = none) := by
  have hbelow : fd.free fd.freefile = 0 := Nat.count_iff_forall_not.2 h.below
  have hrest := count_slots (fd.slots.drop fd.freefile)
  simp only [List.getElem?_drop, List.length_drop] at hrest
  have hsum := free_add fd fd.freefile (fd.slots.length - fd.freefile)
  rw [Nat.add_sub_cancel' h.freefile_le, hbelow, Nat.zero_add] at hsum
  exact hsum.trans hrest

/-- A predicate that loses one number below a bound counts one less. -/
theorem count_erase {p q : Nat → Prop} [DecidablePred p] [DecidablePred q] {i n : Nat} (hi : i < n) (hp : p i)
    (hq : ∀ j, q j ↔ j ≠ i ∧ p j) : Nat.count p n = Nat.count q n + 1 := by
  have herase : (Finset.range n).filter q = ((Finset.range n).filter p).erase i := by
    ext j
    simp only [Finset.mem_filter, Finset.mem_erase, hq]
    tauto
  have hmem : i ∈ (Finset.range n).filter p := Finset.mem_filter.2 ⟨Finset.mem_range.2 hi, hp⟩
  rw [Nat.count_eq_card_filter_range, Nat.count_eq_card_filter_range, herase, Finset.card_erase_add_one hmem]

theorem availLoop_iff (slots : List Slot) (n : Int) :
    availLoop slots n = true ↔ 0 < slots.countP (·.file = none) ∧ n ≤ slots.countP (·.file = none) := by
  induction slots generalizing n with
  | nil => simp [availLoop]
  | cons slot slots ih =>
    rw [availLoop]
    by_cases hf : slot.file = none
    · rw [if_pos hf, List.countP_cons_of_pos (by simpa using hf)]
      split
      · simp only [true_iff]
        omega
      · rw [ih]
        omega
    · rw [if_neg hf, List.countP_cons_of_neg (by simpa using hf)]
      exact ih n

theorem fdavail_iff (h : Hinted fd) (n : Int) (lim : Nat) :
    fdavail fd n lim = true ↔
      if fd.slots.length < lim then n ≤ fd.free lim
      else 0 < fd.free fd.slots.length ∧ n ≤ fd.free fd.slots.length := by
  simp only [fdavail]
  by_cases hlt : fd.slots.length < lim
  · have hlim := free_above fd (lim - fd.slots.length)
    rw [Nat.add_sub_cancel' hlt.le] at hlim
    rw [if_pos hlt, if_pos (c := (lim : Int) - fd.slots.length > 0) (by omega)]
    split
    · simp only [true_iff]
      omega
    · rw [availLoop_iff, ← free_length h]
      omega
  · rw [if_neg hlt, if_neg (by omega), if_neg (by omega), availLoop_iff, ← free_length h]

/-! ## Giving descriptors -/

theorem store_fileAt {i : Nat} (hi : i < fd.slots.length) (fp : FileId) (j : Nat) :
    (fd.store i fp).fileAt j = if j = i then some fp else fd.fileAt j := by
  rw [Filedesc.store, modify_file hi]
  exact fileAt_set hi _ _ _ _ j

/-- `fdalloc` and the assignment behind it use up one descriptor, if one is left. -/
theorem fdalloc_store (h : Hinted fd) (lim : Nat) (fp : FileId) :
    (∃ fd' i, fdalloc fd 0 lim = (fd', .ok i) ∧ Hinted (fd'.store i fp) ∧ fd.free lim = (fd'.store i fp).free lim + 1) ∨
      ∃ fd', fdalloc fd 0 lim = (fd', .error .EMFILE) ∧ fd.free lim = 0 := by
  rcases fdallocLoop_spec (fun _ => id) (fun _ => expand_hinted) 0 lim _ h (Nat.lt_succ_self _) with
    ⟨base, i, he, hg, hbase, hi, hleast⟩ | ⟨base, he, -, -, hempty⟩
  · have hi' : i < (take base 0 i).slots.length := by simpa [take] using hi
    have hat : ∀ j, ((take base 0 i).store i fp).fileAt j = if j = i then some fp else fd.fileAt j := fun j => by
      rw [store_fileAt hi', take_fileAt, hg.fileAt]
    refine .inl ⟨take base 0 i, i, he, ⟨fun j hj => ?_, by simpa [Filedesc.store, take] using hbase.nonempty⟩, ?_⟩
    · -- the new hint is at most `i`, the least unused descriptor
      have hle : j < i := hj.trans_le (Nat.mod_le i (2 ^ 16))
      rw [hat, if_neg (by omega)]
      intro hn
      exact absurd (hleast.2 ⟨Nat.zero_le j, hle.trans hleast.1.2.1, hn⟩) (by omega)
    · refine count_erase hleast.1.2.1 hleast.1.2.2 fun j => ?_
      rw [hat]
      split
      · rename_i hj
        simp [hj]
      · rename_i hj
        simp [hj]
  · refine .inr ⟨base, he, Nat.count_iff_forall_not.2 fun j hj hn => ?_⟩
    exact (Set.ext_iff.1 hempty j).1 ⟨Nat.zero_le j, hj, hn⟩

theorem install_iff (h : Hinted fd) (lim : Nat) (rights : List FileId) :
    (install fd lim rights).isSome ↔ rights.length ≤ fd.free lim := by
  induction rights generalizing fd with
  | nil => simp [install]
  | cons fp rights ih =>
    rcases fdalloc_store h lim fp with ⟨fd', i, he, hh, hfree⟩ | ⟨fd', he, hfree⟩
    · simp only [install, he, Option.isSome_map, ih hh, List.length_cons]
      omega
    · simp [install, he, hfree]

/-- `fdavail` is right about the calls of `fdalloc` in the tables that are not
larger than the limit; in the others if there are enough descriptors below the
limit, or too few in the table. -/
theorem fdavail_right (h : Hinted fd) (n : Int) (lim : Nat) {rights : List FileId} (hn : rights.length = n.toNat) :
    (fdavail fd n lim = true → (install fd lim rights).isSome) ↔
      fd.slots.length ≤ lim ∨ n ≤ fd.free lim ∨ fd.free fd.slots.length < n := by
  rw [fdavail_iff h, install_iff h, hn]
  split
  · omega
  · constructor
    · intro himp
      by_contra hno
      have := himp ⟨by omega, by omega⟩
      omega
    · rintro (hle | hle | hlt) ⟨hpos, hfree⟩
      · rw [show lim = fd.slots.length by omega]
        omega
      · omega
      · omega

/-! ## Tables in a run -/

/-- A call, or a message of files that arrives with these limits. -/
inductive Event
  | call (op : Op)
  | externalize (rlim : Int) (maxfiles : Nat) (rights : List FileId)
  deriving DecidableEq, Repr

/-- The system after an event, or after a panic. -/
def arrive : Option State → Nat × Event → Option State
  | none, _ => none
  | some s, (p, .call op) => step (some s) (p, op)
  | some s, (p, .externalize rlim maxfiles rights) =>
    match s.fdOf p with
    | none => some s
    | some fd => (externalize fd (limOf rlim maxfiles) rights).map fun r => s.setFd p r.1

/-- The descriptor that a call gives out is one that `fd_lastfile` and
`fd_freefile` can hold. -/
def Op.low (fd : Filedesc) : Op → Prop
  | .falloc l => ∀ i, IsLeast (unused fd 0 l.lim) i → i < 2 ^ 16
  | .dup old dst l => if old ≥ 64 then dst < l.lim → dst < 2 ^ 16 else ∀ i, IsLeast (unused fd 0 l.lim) i → i < 2 ^ 16
  | .dup2 _ new l => new < l.lim → new < 2 ^ 16
  | .dupfd _ newmin l => ∀ i, IsLeast (unused fd newmin l.lim) i → i < 2 ^ 16
  | .close _ | .fdcopy | .fdfree => True

/-- All descriptors that an event gives out are such. -/
def Low : Option State → Nat × Event → Prop
  | none, _ => True
  | some s, (p, .call op) => ∀ fd, s.fdOf p = some fd → op.low fd
  | some s, (p, .externalize rlim maxfiles rights) =>
    ∀ fd, s.fdOf p = some fd → ∀ r, install fd (limOf rlim maxfiles) rights = some r → ∀ i ∈ r.2, i < 2 ^ 16

/-- Every table of the system is in order. -/
def State.Tables (s : State) : Prop := ∀ fd, some fd ∈ s.procs → TableOk fd

section Tables
variable {s s' : State} {p : Nat} {res : Except Errno Nat}

theorem State.Tables.of_fdOf (h : s.Tables) (hp : s.fdOf p = some fd) : TableOk fd :=
  h fd (List.mem_of_getElem? (procs_of_fdOf hp))

theorem State.Tables.set (h : s.Tables) (hok : TableOk fd) {files : List (Option Int)} {nfiles : Int} :
    State.Tables ⟨files, nfiles, s.procs.set p (some fd)⟩ :=
  tables_set h fun _ hx => Option.some.inj hx ▸ hok

theorem store_ok (h : TableOk fd) {i : Nat} (hi : i < fd.slots.length) (hle : i ≤ fd.lastfile) (fp : FileId) :
    TableOk (fd.store i fp) := by
  rw [Filedesc.store, modify_file hi]
  exact put_ok h hi h.last hle (Nat.le_refl _) fp _

theorem install_ok (h : TableOk fd) {lim : Nat} {rights : List FileId} {r : Filedesc × List Nat}
    (hr : install fd lim rights = some r) (hlow : ∀ i ∈ r.2, i < 2 ^ 16) : TableOk r.1 := by
  induction rights generalizing fd r with
  | nil =>
    cases hr
    exact h
  | cons fp rights ih =>
    rcases fdalloc_spec h 0 lim with ⟨base, i, he, hg, hbase, hi, hleast⟩ | ⟨base, he, -⟩
    · simp only [install, he, Option.map_eq_some_iff] at hr
      obtain ⟨r', hr', rfl⟩ := hr
      obtain ⟨hok, hle⟩ := take_ok hbase hi (hg.unused 0 lim ▸ hleast) (hlow i List.mem_cons_self)
      exact ih (r := r') (store_ok hok (by simpa [take] using hi) hle fp) hr' fun j hj => hlow j (List.mem_cons_of_mem _ hj)
    · simp [install, he] at hr

theorem finishdup_tables (h : s.Tables) (hok : TableOk fd) {old new : Nat} (hnew : new < fd.slots.length)
    (hshort : new < 2 ^ 16) (hs : finishdup s p fd old new = some (s', res)) : s'.Tables := by
  simp only [finishdup, Option.bind_eq_bind, Option.bind_eq_some_iff] at hs
  obtain ⟨slot, -, f, -, files, -, hs⟩ := hs
  cases hs
  refine h.set ?_
  have hlast := hok.last
  have hmax : (if new > fd.lastfile then ushort new else fd.lastfile) = max new fd.lastfile := by
    rw [ushort_of_lt hshort]
    split <;> omega
  rw [hmax]
  exact put_ok hok hnew (by omega) (by omega) (by omega) f _

theorem allocDup_tables (h : s.Tables) (hp : s.fdOf p = some fd) {old want lim : Nat}
    (hlow : ∀ i, IsLeast (unused fd want lim) i → i < 2 ^ 16)
    (hs : (match fdalloc fd want lim with
      | (fd, .error e) => some (s.setFd p fd, .error e)
      | (fd, .ok i) => finishdup s p fd old i) = some (s', res)) : s'.Tables := by
  rcases fdalloc_spec (h.of_fdOf hp) want lim with ⟨base, i, he, hg, hbase, hi, hleast⟩ | ⟨base, he, -, hbase, -⟩
  · rw [he] at hs
    obtain ⟨hok, -⟩ := take_ok hbase hi (hg.unused want lim ▸ hleast) (hlow i hleast)
    exact finishdup_tables h hok (by simpa [take] using hi) (hlow i hleast) hs
  · rw [he] at hs
    cases hs
    exact h.set hbase

theorem dup2_tables (h : s.Tables) (hp : s.fdOf p = some fd) {old new : Nat} {l : Limits}
    (hlow : new < l.lim → new < 2 ^ 16) (hs : dup2 s p fd old new l = some (s', res)) : s'.Tables := by
  have hok := h.of_fdOf hp
  rw [dup2] at hs
  split at hs
  · cases hs
    exact h
  · rename_i hargs
    have hlim : new < l.lim := by
      unfold Limits.lim
      omega
    split at hs
    · cases hs
      exact h
    · split at hs
      · rename_i hge
        rcases fdalloc_spec hok new l.lim with ⟨base, i, he, hg, hbase, hi, hleast⟩ | ⟨base, he, -, hbase, -⟩
        · have hi' : i = new := Nat.le_antisymm (hleast.2 ⟨Nat.le_refl _, hlim, fileAt_of_ge hge⟩) hleast.1.1
          subst hi'
          rw [he] at hs
          simp only [ne_eq, not_true_eq_false, if_false] at hs
          obtain ⟨hok', -⟩ := take_ok hbase hi (hg.unused i l.lim ▸ hleast) (hlow hlim)
          exact finishdup_tables h hok' (by simpa [take] using hi) (hlow hlim) hs
        · rw [he] at hs
          cases hs
          exact h.set hbase
      · rename_i hlt
        split at hs
        · exact finishdup_tables h hok (by omega) (hlow hlim) hs
        · simp only [Option.bind_eq_bind, Option.bind_eq_some_iff] at hs
          obtain ⟨⟨files, freed⟩, -, hs⟩ := hs
          obtain ⟨hok', -, -, hlen⟩ := unmap_ok hok new
          exact finishdup_tables (s := { s with files := files, nfiles := s.nfiles - freed }) h hok' (by omega)
            (hlow hlim) hs

theorem falloc_tables (h : s.Tables) (hp : s.fdOf p = some fd) {l : Limits}
    (hlow : ∀ i, IsLeast (unused fd 0 l.lim) i → i < 2 ^ 16) : (falloc s p fd l).1.Tables := by
  rw [falloc]
  rcases fdalloc_spec (h.of_fdOf hp) 0 l.lim with ⟨base, i, he, hg, hbase, hi, hleast⟩ | ⟨base, he, -, hbase, -⟩
  · rw [he]
    obtain ⟨hok, hle⟩ := take_ok hbase hi (hg.unused 0 l.lim ▸ hleast) (hlow i hleast)
    simp only
    split
    · exact h.set hok
    · exact h.set (store_ok hok (by simpa [take] using hi) hle _)
  · rw [he]
    exact h.set hbase

theorem call_tables (h : s.Tables) (hp : s.fdOf p = some fd) {op : Op} (hlow : op.low fd)
    (hs : call s p fd op = some (s', res)) : s'.Tables := by
  have hok := h.of_fdOf hp
  cases op with
  | falloc l =>
    have hfst : (falloc s p fd l).1 = s' := congrArg Prod.fst (Option.some.inj hs)
    exact hfst ▸ falloc_tables h hp hlow
  | dup old dst l =>
    simp only [call, dup] at hs
    simp only [Op.low] at hlow
    split at hs
    · rename_i hge
      rw [if_pos hge] at hlow
      exact dup2_tables h hp hlow hs
    · rename_i hlt
      rw [if_neg hlt] at hlow
      split at hs
      · cases hs
        exact h
      · exact allocDup_tables h hp hlow hs
  | dup2 old new l => exact dup2_tables h hp hlow hs
  | dupfd old newmin l =>
    simp only [call, dupfd] at hs
    split at hs
    · cases hs
      exact h
    · split at hs
      · cases hs
        exact h
      · exact allocDup_tables h hp hlow hs
  | close i =>
    simp only [call, close] at hs
    split at hs
    · cases hs
      exact h
    · rename_i f hf
      simp only [Option.bind_eq_bind, Option.bind_eq_some_iff] at hs
      obtain ⟨⟨files, freed⟩, -, hs⟩ := hs
      cases hs
      exact h.set (clear_ok hok (lt_of_fileAt hf))
  | fdcopy =>
    simp only [call, fdcopy, Option.bind_eq_bind, Option.bind_eq_some_iff] at hs
    obtain ⟨files, -, hs⟩ := hs
    cases hs
    intro fd' hfd'
    rcases List.mem_append.1 hfd' with hmem | hmem
    · exact h fd' hmem
    · obtain rfl : fd' = copyTable fd := by simpa using hmem
      exact copyTable_ok hok
  | fdfree =>
    simp only [call] at hs
    rw [fdfree, if_neg (by rw [hok.refcnt]; omega)] at hs
    simp only [Option.bind_eq_bind, Option.bind_eq_some_iff] at hs
    obtain ⟨⟨files, nfiles⟩, -, hs⟩ := hs
    cases hs
    exact tables_set h fun _ hx => by cases hx

end Tables

theorem arrive_tables {st : Option State} {e : Nat × Event} (h : ∀ s, st = some s → s.Tables) (hlow : Low st e) :
    ∀ s, arrive st e = some s → s.Tables := by
  obtain ⟨p, ev⟩ := e
  intro s' hs'
  cases st with
  | none => cases hs'
  | some s =>
    have hs := h s rfl
    cases ev with
    | call op =>
      simp only [arrive, step] at hs'
      cases hp : s.fdOf p with
      | none =>
        rw [hp] at hs'
        cases hs'
        exact hs
      | some fd =>
        rw [hp] at hs'
        obtain ⟨⟨s₁, res⟩, hcall, rfl⟩ := Option.map_eq_some_iff.1 hs'
        exact call_tables hs hp (hlow fd hp) hcall
    | externalize rlim maxfiles rights =>
      simp only [arrive] at hs'
      cases hp : s.fdOf p with
      | none =>
        rw [hp] at hs'
        cases hs'
        exact hs
      | some fd =>
        rw [hp] at hs'
        obtain ⟨r, hr, rfl⟩ := Option.map_eq_some_iff.1 hs'
        refine hs.set ?_
        rw [externalize] at hr
        split at hr
        · obtain ⟨r', hr', rfl⟩ := Option.map_eq_some_iff.1 hr
          exact install_ok (hs.of_fdOf hp) hr' (hlow fd hp r' hr')
        · cases hr
          exact hs.of_fdOf hp

theorem run_tables (events : List (Nat × Event)) (h : Along arrive Low (some init) events) :
    ∀ s, some s ∈ states arrive (some init) events → s.Tables := by
  have hall : ∀ st ∈ states arrive (some init) events, ∀ s, st = some s → s.Tables :=
    states_of_along (fun _ _ hst hlow => arrive_tables hst hlow)
      (fun s hs => Option.some.inj hs ▸ init_good.tables) h
  exact fun s hs => hall _ hs s rfl

/-- In every table that a run reaches, for any limits of the moment: what
`fdavail` promises for `n` files, `fdalloc` keeps `n` times, unless the limit is
below `fd_nfiles` and the table has `n` unused descriptors, but not below the
limit. In these tables, and only there, `unp_externalize` panics. -/
theorem fdavail_runs (events : List (Nat × Event)) (h : Along arrive Low (some init) events) (s : State)
    (hs : some s ∈ states arrive (some init) events) (p : Nat) (fd : Filedesc) (hp : s.fdOf p = some fd)
    (rlim : Int) (maxfiles : Nat) :
    (∀ (n : Int) (rights : List FileId), rights.length = n.toNat →
      ((fdavail fd n (limOf rlim maxfiles) = true → (install fd (limOf rlim maxfiles) rights).isSome) ↔
        fd.slots.length ≤ limOf rlim maxfiles ∨ n ≤ fd.free (limOf rlim maxfiles) ∨
          fd.free fd.slots.length < n)) ∧
      ∀ rights : List FileId, (arrive (some s) (p, .externalize rlim maxfiles rights)).isSome ↔
        fd.slots.length ≤ limOf rlim maxfiles ∨ rights.length ≤ fd.free (limOf rlim maxfiles) ∨
          fd.free fd.slots.length < rights.length := by
  have hhint := ((run_tables events h s hs).of_fdOf hp).hinted
  refine ⟨fun n rights hn => fdavail_right hhint n _ hn, fun rights => ?_⟩
  have hright := @fdavail_right fd hhint rights.length (limOf rlim maxfiles) rights (by simp)
  simp only [arrive, hp, externalize, Option.isSome_map]
  split
  · rename_i hav
    simp only [hav, forall_const, Nat.cast_le, Nat.cast_lt] at hright
    rw [Option.isSome_map, hright]
  · rename_i hav
    simp only [hav, Nat.cast_le, Nat.cast_lt] at hright
    simpa using hright

/-- Three files, and a message with two more. -/
def opened : List (Nat × Event) :=
  [(0, .call (.falloc small)), (0, .call (.falloc small)), (0, .call (.falloc small)), (0, .externalize 64 200 [0, 1])]

/-- The table with these files at its first descriptors. -/
def firstFiles (files : List FileId) : Filedesc :=
  ⟨files.map (fun f => ⟨some f, 0⟩) ++ List.replicate (NDFILE - files.length) Slot.zero, files.length - 1,
    files.length - 1, 1⟩

theorem opened_low : Along arrive Low (some init) opened := by
  have hsmall : ∀ (fd : Filedesc) (i : Nat), IsLeast (unused fd 0 small.lim) i → i < 2 ^ 16 := fun fd i hi => by
    have : i < 64 := hi.1.2.1
    omega
  refine ⟨fun fd _ => hsmall fd, fun fd _ => hsmall fd, fun fd _ => hsmall fd, fun fd hfd r hr i hi => ?_, trivial⟩
  have hfirst : firstFiles [0, 1, 2] = fd := Option.some.inj hfd
  subst hfirst
  have hinst : install (firstFiles [0, 1, 2]) 64 [0, 1] = some (firstFiles [0, 1, 2, 0, 1], [3, 4]) := by decide +kernel
  obtain rfl : (firstFiles [0, 1, 2, 0, 1], [3, 4]) = r := Option.some.inj (hinst.symm.trans hr)
  simp only [List.mem_cons, List.not_mem_nil, or_false] at hi
  omega

theorem opened_final :
    final arrive (some init) opened = some ⟨[some 1, some 1, some 1], 3, [some (firstFiles [0, 1, 2, 0, 1])]⟩ := by
  decide +kernel

/-- With the limit lowered to six, below the size of the table, a message of one
file gets descriptor five. -/
theorem fdavail_runs_lowered :
    (arrive (final arrive (some init) opened) (0, .externalize 6 200 [2])).isSome ∧
      (firstFiles [0, 1, 2, 0, 1]).free 6 = 1 := by
  have hfree : (firstFiles [0, 1, 2, 0, 1]).free 6 = 1 := by decide +kernel
  have hmem := final_mem_states arrive (some init) opened
  rw [opened_final] at hmem ⊢
  refine ⟨((fdavail_runs opened opened_low _ hmem 0 (firstFiles [0, 1, 2, 0, 1]) rfl 6 200).2 [2]).2 (.inr (.inl ?_)), hfree⟩
  exact hfree.ge

/-- A process with five files lowers its limit to three and receives a file: there
are fifteen unused slots in its table, and `fdalloc` gives none of them. -/
theorem externalize_panics :
    Along arrive Low (some init) opened ∧
      ∃ s fd, final arrive (some init) opened = some s ∧ s.fdOf 0 = some fd ∧ fdavail fd 1 (limOf 3 200) = true ∧
        install fd (limOf 3 200) [2] = none ∧ arrive (some s) (0, .externalize 3 200 [2]) = none :=
  ⟨opened_low, _, _, opened_final, rfl, by decide +kernel, by decide +kernel, by decide +kernel⟩

end BsdKernel.Descrip
