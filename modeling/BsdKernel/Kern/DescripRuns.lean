import BsdKernel.Kern.DescripTable
import BsdKernel.Lib.Trace
/-!
# Files are counted by the slots that refer to them

`Counted` ties the file table to a number of references for each file: a file
that has some is allocated with this `f_count`, the others are free. The calls
keep it as long as the numbers fit their types (`Fits`): `descrip_runs`. They do
not always: `f_count` is a `short` that nothing checks (`descrip_overflow`).
-/

namespace BsdKernel.Descrip

open BsdKernel.Lib

variable {s : State} {p old : Nat} {fd : Filedesc}

/-! ## The file table -/

structure Counted (files : List (Option Int)) (r : FileId → Nat) : Prop where
  count : ∀ f, count files f = if r f = 0 then none else some (r f : Int)
  short : ∀ f, r f < 2 ^ 15

theorem short_of_range {x : Int} (h : -2 ^ 15 ≤ x) (h' : x < 2 ^ 15) : short x = x := by
  unfold short
  rw [Int.emod_eq_of_lt (by omega) (by omega)]
  omega

section Files
variable {files : List (Option Int)} {r r' : FileId → Nat} {f : FileId}

theorem Counted.congr (h : Counted files r) (hr : ∀ g, r' g = r g) : Counted files r' :=
  (funext hr : r' = r) ▸ h

theorem Counted.lt_length (h : Counted files r) (hf : 0 < r f) : f < files.length := by
  have hc := h.count f
  rw [if_neg (by omega)] at hc
  by_contra hge
  rw [Descrip.count, List.getElem?_eq_none (Nat.le_of_not_lt hge)] at hc
  cases hc

theorem count_set (hf : f < files.length) (c : Option Int) (g : FileId) :
    count (files.set f c) g = if f = g then c else count files g := by
  simp only [count, List.getElem?_set]
  by_cases h : f = g
  · rw [if_pos h, if_pos h, if_pos hf]
    rfl
  · rw [if_neg h, if_neg h]

theorem hold_spec (r' : FileId → Nat) (h : Counted files r) (hf : 0 < r f) (hr : ∀ g, r' g = r g + if f = g then 1 else 0)
    (hshort : r' f < 2 ^ 15) : ∃ files', hold files f = some files' ∧ Counted files' r' := by
  have hc := h.count f
  have hrf := hr f
  rw [if_pos rfl] at hrf
  rw [if_neg (by omega)] at hc
  refine ⟨_, by rw [hold, hc, Option.map_some], fun g => ?_, fun g => ?_⟩
  · rw [count_set (h.lt_length hf), h.count, hr g]
    split
    · rename_i he
      subst he
      rw [if_neg (by omega), short_of_range (by omega) (by omega)]
      rfl
    · rfl
  · rw [hr g]
    split
    · rename_i he
      subst he
      omega
    · exact h.short g

theorem closef_spec (r' : FileId → Nat) (h : Counted files r) (hr : ∀ g, r' g + (if f = g then 1 else 0) = r g) :
    ∃ files' freed, closef files f = some (files', freed) ∧ Counted files' r' := by
  have hc := h.count f
  have hrf := hr f
  have hs := h.short f
  rw [if_pos rfl] at hrf
  rw [if_neg (by omega)] at hc
  have hshort : ∀ g, r' g < 2 ^ 15 := fun g => by
    have := hr g
    have := h.short g
    omega
  have hne : ∀ c : Option Int, (c = if r' f = 0 then none else some (r' f : Int)) → Counted (files.set f c) r' := by
    intro c hcount
    refine ⟨fun g => ?_, hshort⟩
    rw [count_set (h.lt_length (f := f) (by omega))]
    split
    · rename_i he
      exact he ▸ hcount
    · rename_i he
      have := hr g
      rw [if_neg he] at this
      rw [h.count, show r' g = r g by omega]
  simp only [closef, hc, Option.bind_eq_bind, Option.bind_some]
  rw [short_of_range (by omega) (by omega)]
  split
  · exact ⟨_, _, rfl, hne _ (by rw [if_neg (by omega)]; congr 1; omega)⟩
  · rw [if_neg (by omega)]
    exact ⟨_, _, rfl, hne none (by rw [if_pos (by omega)])⟩

theorem hold_all (fs : List FileId) (r' : FileId → Nat) (h : Counted files r) (hf : ∀ f ∈ fs, 0 < r f) (hr : ∀ g, r' g = r g + fs.count g)
    (hshort : ∀ g, r' g < 2 ^ 15) : ∃ files', fs.foldlM hold files = some files' ∧ Counted files' r' := by
  induction fs generalizing files r with
  | nil => exact ⟨files, rfl, h.congr fun g => by simpa using hr g⟩
  | cons f fs ih =>
    have hcount : ∀ g, (f :: fs).count g = fs.count g + if f = g then 1 else 0 := by
      intro g
      rw [List.count_cons]
      simp
    have hle := hr f
    have hsf := hshort f
    rw [hcount] at hle
    obtain ⟨files₁, h₁, hc₁⟩ := hold_spec (fun g => r g + if f = g then 1 else 0) h (hf f (by simp))
      (fun _ => rfl) (by rw [if_pos rfl] at hle ⊢; omega)
    obtain ⟨files', h', hc'⟩ := ih hc₁ (fun g hg => by have := hf g (by simp [hg]); omega)
      (fun g => by have := hr g; rw [hcount] at this; omega)
    exact ⟨files', by rw [List.foldlM_cons, h₁]; exact h', hc'⟩

theorem close_all (fs : List FileId) (nfiles : Int) (h : Counted files r) (hr : ∀ g, r' g + fs.count g = r g) :
    ∃ files' nfiles', closeAll files nfiles fs = some (files', nfiles') ∧ Counted files' r' := by
  induction fs generalizing files nfiles r with
  | nil => exact ⟨files, nfiles, rfl, h.congr fun g => by simpa using hr g⟩
  | cons f fs ih =>
    have hcount : ∀ g, (f :: fs).count g = fs.count g + if f = g then 1 else 0 := by
      intro g
      rw [List.count_cons]
      simp
    obtain ⟨files₁, freed, h₁, hc₁⟩ := closef_spec (f := f) (fun g => r' g + fs.count g) h
      (fun g => by have := hr g; rw [hcount] at this; omega)
    obtain ⟨files', nfiles', h', hc'⟩ := ih (nfiles - freed) hc₁ (fun _ => rfl)
    exact ⟨files', nfiles', by rw [closeAll, h₁]; exact h', hc'⟩

/-- `falloc` makes a file with one reference. -/
theorem alloc_spec (h : Counted files r) (hr : ∀ g, r' g = r g + if files.length = g then 1 else 0) :
    Counted (files ++ [some 1]) r' := by
  have h0 : r files.length = 0 := by
    by_contra hne
    exact Nat.lt_irrefl _ (h.lt_length (Nat.pos_of_ne_zero hne))
  refine ⟨fun g => ?_, fun g => ?_⟩
  · rw [hr g]
    by_cases he : files.length = g
    · subst he
      simp [Descrip.count, h0]
    · have hc := h.count g
      rw [if_neg he, Nat.add_zero, ← hc, Descrip.count, Descrip.count, List.getElem?_append]
      split
      · rfl
      · rw [List.getElem?_eq_none (l := files) (by omega), List.getElem?_eq_none (by simp; omega)]
  · rw [hr g]
    split
    · rename_i he
      subst he
      omega
    · exact h.short g

end Files

/-! ## References -/

/-- The slots of a process that refer to a file. -/
def slotsOf (f : FileId) : Option Filedesc → Nat
  | none => 0
  | some fd => fd.refsIn f

/-- The slots of all tables that refer to a file. -/
def State.refs (s : State) (f : FileId) : Nat := (s.procs.map (slotsOf f)).sum

theorem sum_map_set {α : Type} (w : α → Nat) {l : List α} {i : Nat} {x : α} (h : l[i]? = some x) (y : α) :
    ((l.set i y).map w).sum + w x = (l.map w).sum + w y := by
  induction l generalizing i with
  | nil => simp at h
  | cons a l ih =>
    cases i with
    | zero =>
      obtain rfl : a = x := by simpa using h
      simp only [List.set_cons_zero, List.map_cons, List.sum_cons]
      omega
    | succ i =>
      have := ih (by simpa using h)
      simp only [List.set_cons_succ, List.map_cons, List.sum_cons]
      omega

theorem procs_of_fdOf (h : s.fdOf p = some fd) : s.procs[p]? = some (some fd) :=
  Option.join_eq_some_iff.1 h

theorem refs_set (h : s.fdOf p = some fd) (files : List (Option Int)) (nfiles : Int) (x : Option Filedesc)
    (f : FileId) : (⟨files, nfiles, s.procs.set p x⟩ : State).refs f + fd.refsIn f = s.refs f + slotsOf f x :=
  sum_map_set (slotsOf f) (procs_of_fdOf h) x

theorem refsIn_le_refs (h : s.fdOf p = some fd) (f : FileId) : fd.refsIn f ≤ s.refs f := by
  have := refs_set h [] 0 none f
  simp only [slotsOf] at this
  omega

theorem refsIn_pos {i : Nat} {f : FileId} (h : fd.fileAt i = some f) : 0 < fd.refsIn f := by
  have hi := lt_of_fileAt h
  refine List.countP_pos_iff.2 ⟨fd.slots[i], List.getElem_mem hi, ?_⟩
  simpa [Filedesc.fileAt, hi] using h

/-- Every file is counted and every table is in order. -/
structure Good (s : State) : Prop where
  counted : Counted s.files s.refs
  tables : ∀ fd, some fd ∈ s.procs → TableOk fd

theorem Good.table (h : Good s) (hp : s.fdOf p = some fd) : TableOk fd :=
  h.tables fd (List.mem_of_getElem? (procs_of_fdOf hp))

theorem tables_set (h : ∀ fd, some fd ∈ s.procs → TableOk fd) {x : Option Filedesc}
    (hx : ∀ fd, x = some fd → TableOk fd) : ∀ fd, some fd ∈ s.procs.set p x → TableOk fd := by
  intro fd hfd
  rcases List.mem_or_eq_of_mem_set hfd with hmem | rfl
  · exact h fd hmem
  · exact hx fd rfl

theorem Good.setFd (h : Good s) {fd' : Filedesc} (hp : s.fdOf p = some fd) (hok : TableOk fd')
    (hrefs : ∀ f, fd'.refsIn f = fd.refsIn f) : Good (s.setFd p fd') := by
  refine ⟨h.counted.congr fun f => ?_, tables_set h.tables fun _ hx => Option.some.inj hx ▸ hok⟩
  have := refs_set hp s.files s.nfiles (some fd') f
  simp only [slotsOf, hrefs] at this
  simp only [State.setFd]
  omega

/-! ## Calls -/

/-- `finishdup` in a table whose slot `new`, if it was in use, is no longer
counted. -/
theorem finishdup_good {fd₀ : Filedesc} {r : FileId → Nat} (hp : s.fdOf p = some fd₀)
    (htables : ∀ fd, some fd ∈ s.procs → TableOk fd) (hcounted : Counted s.files r) (hok : TableOk fd)
    (hrefs : ∀ f, fd.refsIn f = fd₀.refsIn f) {new : Nat} {f : FileId} (hold : fd.fileAt old = some f)
    (hne : old ≠ new) (hnew : new < fd.slots.length) (hshort : new < 2 ^ 16)
    (hr : ∀ g, r g + (if fd.fileAt new = some g then 1 else 0) = s.refs g) (hfits : r f + 1 < 2 ^ 15) :
    ∃ s', finishdup s p fd old new = some (s', .ok new) ∧ Good s' := by
  have holdlt := lt_of_fileAt hold
  have hslot : fd.slots[old]? = some fd.slots[old] := List.getElem?_eq_getElem holdlt
  have hfile : fd.slots[old].file = some f := by simpa [Filedesc.fileAt, hslot] using hold
  -- the slot `old` is counted besides `new`
  have hpos : 0 < r f := by
    have hclear : (clear fd new).fileAt old = some f := by rw [clear_fileAt hnew, if_neg hne, hold]
    have h₁ := refsIn_pos hclear
    have h₂ := clear_refsIn hnew f
    have h₃ := refsIn_le_refs hp f
    have h₄ := hr f
    have h₅ := hrefs f
    omega
  obtain ⟨files', hh, hc'⟩ := hold_spec (fun g => r g + if f = g then 1 else 0) hcounted hpos (fun _ => rfl)
    (by rw [if_pos rfl]; exact hfits)
  have hlast : (if new > fd.lastfile then ushort new else fd.lastfile) = max new fd.lastfile := by
    rw [ushort_of_lt hshort]
    split <;> omega
  have hokput : TableOk { fd with
      slots := fd.slots.set new ⟨some f, fd.slots[old].flags &&& ~~~UF_EXCLOSE⟩
      lastfile := if new > fd.lastfile then ushort new else fd.lastfile } := by
    rw [hlast]
    exact put_ok hok hnew (by have := hok.last; omega) (by omega) (by omega) f _
  refine ⟨_, by simp only [finishdup, hslot, Option.bind_eq_bind, Option.bind_some, hfile, hh]; rfl, ?_,
    tables_set htables fun _ hx => Option.some.inj hx ▸ hokput⟩
  refine hc'.congr fun g => ?_
  have h₁ := refs_set hp files' s.nfiles (some { fd with
      slots := fd.slots.set new ⟨some f, fd.slots[old].flags &&& ~~~UF_EXCLOSE⟩
      lastfile := if new > fd.lastfile then ushort new else fd.lastfile }) g
  have h₂ := refsIn_set hnew ⟨some f, fd.slots[old].flags &&& ~~~UF_EXCLOSE⟩
    (if new > fd.lastfile then ushort new else fd.lastfile) fd.freefile fd.refcnt g
  have h₃ := hr g
  have h₄ := hrefs g
  simp only [slotsOf, Option.some.injEq] at h₁ h₂ ⊢
  omega

/-- A descriptor for `old` is found below `2 ^ 16`, and `f_count` has room. -/
def fitsAlloc (s : State) (fd : Filedesc) (old want : Nat) (l : Limits) : Prop :=
  ∀ f i, fd.fileAt old = some f → IsLeast (unused fd want l.lim) i → i < 2 ^ 16 ∧ s.refs f + 1 < 2 ^ 15

def fitsDup2 (s : State) (fd : Filedesc) (old new : Nat) (l : Limits) : Prop :=
  ∀ f, fd.fileAt old = some f → new < l.lim → old ≠ new →
    new < 2 ^ 16 ∧ (fd.fileAt new = some f ∨ s.refs f + 1 < 2 ^ 15)

/-- The descriptor that the call allocates fits a `u_short`, and the references
it adds to a file fit the `short` of its `f_count`. -/
def Op.fits (s : State) (fd : Filedesc) : Op → Prop
  | .falloc l => ∀ i, IsLeast (unused fd 0 l.lim) i → i < 2 ^ 16
  | .dup old dst l => if old ≥ 64 then fitsDup2 s fd (old % 64) dst l else fitsAlloc s fd old 0 l
  | .dup2 old new l => fitsDup2 s fd old new l
  | .dupfd old newmin l => fitsAlloc s fd old newmin l
  | .close _ => True
  | .fdcopy => ∀ f, s.refs f + fd.refsIn f < 2 ^ 15
  | .fdfree => True

section Calls
variable {s : State} {p : Nat} {fd : Filedesc}
variable {l : Limits}

theorem falloc_good (h : Good s) (hp : s.fdOf p = some fd) (hfits : (Op.falloc l).fits s fd) :
    Good (falloc s p fd l).1 := by
  unfold falloc
  rcases fdalloc_spec (h.table hp) 0 l.lim with ⟨base, i, he, hg, hok, hi, hleast⟩ | ⟨base, he, hg, hok, -⟩
  · obtain ⟨hok', hle⟩ := take_ok hok hi (hg.unused 0 l.lim ▸ hleast) (hfits i hleast)
    have hrefs : ∀ f, (take base 0 i).refsIn f = fd.refsIn f := fun f => (take_refsIn base 0 i f).trans (hg.refsIn f)
    rw [he]
    simp only
    split
    · exact h.setFd hp hok' hrefs
    · have hi' : i < (take base 0 i).slots.length := by simpa [take] using hi
      have hnone : (take base 0 i).fileAt i = none := by
        rw [take_fileAt, hg.fileAt]
        exact hleast.1.2.2
      obtain ⟨flags, hset⟩ : ∃ flags, (take base 0 i).slots.modify i ({ · with file := some s.files.length }) =
          (take base 0 i).slots.set i ⟨some s.files.length, flags⟩ := ⟨_, modify_file hi' _⟩
      rw [hset]
      refine ⟨alloc_spec h.counted fun g => ?_, tables_set h.tables fun _ hx => Option.some.inj hx ▸ ?_⟩
      · have h₁ := refs_set hp (s.files ++ [some 1]) (s.nfiles + 1) (some { take base 0 i with
          slots := (take base 0 i).slots.set i ⟨some s.files.length, flags⟩ }) g
        have h₂ := refsIn_set hi' ⟨some s.files.length, flags⟩ (take base 0 i).lastfile (take base 0 i).freefile
          (take base 0 i).refcnt g
        have h₃ := hrefs g
        rw [hnone] at h₂
        simp only [slotsOf, Option.some.injEq, reduceCtorEq, if_false] at h₁ h₂ ⊢
        omega
      · exact put_ok hok' hi' hok'.last hle (Nat.le_refl _) _ flags
  · rw [he]
    exact h.setFd hp hok hg.refsIn

theorem allocDup_good (h : Good s) (hp : s.fdOf p = some fd) {want : Nat} {f : FileId} (hf : fd.fileAt old = some f)
    (hfits : fitsAlloc s fd old want l) :
    (∃ base, fdalloc fd want l.lim = (base, .error .EMFILE) ∧ Good (s.setFd p base)) ∨
      ∃ fd' i s', fdalloc fd want l.lim = (fd', .ok i) ∧ finishdup s p fd' old i = some (s', .ok i) ∧ Good s' := by
  rcases fdalloc_spec (h.table hp) want l.lim with ⟨base, i, he, hg, hok, hi, hleast⟩ | ⟨base, he, hg, hok, -⟩
  · obtain ⟨hshort, hroom⟩ := hfits f i hf hleast
    obtain ⟨hok', -⟩ := take_ok hok hi (hg.unused want l.lim ▸ hleast) hshort
    have hat : ∀ j, (take base want i).fileAt j = fd.fileAt j := fun j => (take_fileAt base want i j).trans (hg.fileAt j)
    have hnone : fd.fileAt i = none := hleast.1.2.2
    obtain ⟨s', hs', hgood⟩ := finishdup_good hp h.tables h.counted hok'
      (fun f => (take_refsIn base want i f).trans (hg.refsIn f)) ((hat old).trans hf)
      (fun hoi => by rw [hoi, hnone] at hf; cases hf) (by simpa [take] using hi) hshort
      (fun g => by rw [hat, hnone]; simp) hroom
    exact .inr ⟨_, i, s', he, hs', hgood⟩
  · exact .inl ⟨base, he, h.setFd hp hok hg.refsIn⟩

theorem unmap_ok (h : TableOk fd) (i : Nat) :
    TableOk (unmap fd i) ∧ (∀ j, (unmap fd i).fileAt j = fd.fileAt j) ∧ (∀ f, (unmap fd i).refsIn f = fd.refsIn f) ∧
      (unmap fd i).slots.length = fd.slots.length := by
  unfold unmap
  split
  · have hat : ∀ j, (munmapfd fd i).fileAt j = fd.fileAt j := by
      intro j
      simp only [Filedesc.fileAt, munmapfd, List.getElem?_modify]
      cases fd.slots[j]? with
      | none => rfl
      | some slot =>
        simp only [Option.map_eq_map, Option.map_some, Option.bind_some]
        split <;> rfl
    have hlen : (munmapfd fd i).slots.length = fd.slots.length := by simp [munmapfd]
    refine ⟨⟨by rw [hlen]; exact h.last, fun j hj => (hat j).trans (h.above j hj),
      fun j hj => by rw [hat]; exact h.below j hj, by rw [hlen]; exact h.size, h.refcnt, h.free⟩, hat, ?_, hlen⟩
    exact fun f => countP_modify_of_eq (by simp) _ _
  · exact ⟨h, fun _ => rfl, fun _ => rfl, rfl⟩

theorem dup2_good (h : Good s) (hp : s.fdOf p = some fd) {new : Nat} (hfits : fitsDup2 s fd old new l) :
    ∃ s' res, dup2 s p fd old new l = some (s', res) ∧ Good s' := by
  have hok := h.table hp
  unfold dup2
  split
  · exact ⟨s, _, rfl, h⟩
  · rename_i hargs
    obtain ⟨f, hf⟩ := Option.ne_none_iff_exists'.1 (fun hn => hargs (.inl hn))
    split
    · exact ⟨s, _, rfl, h⟩
    · rename_i hne
      have hlim : new < l.lim := by
        unfold Limits.lim
        omega
      obtain ⟨hshort, hroom⟩ := hfits f hf hlim hne
      split
      · rename_i hge
        -- past the table `new` itself is the least unused descriptor from `new` on
        have hnone : fd.fileAt new = none := fileAt_of_ge hge
        have hleast : IsLeast (unused fd new l.lim) new := ⟨⟨Nat.le_refl _, hlim, hnone⟩, fun j hj => hj.1⟩
        have hfa : fitsAlloc s fd old new l := by
          intro g i hg hi
          obtain rfl : f = g := Option.some.inj (hf.symm.trans hg)
          rw [hi.unique hleast]
          exact ⟨hshort, hroom.resolve_left (by rw [hnone]; simp)⟩
        rcases allocDup_good h hp hf hfa with ⟨base, he, hgood⟩ | ⟨fd', i, s', he, hs', hgood⟩
        · rw [he]
          exact ⟨_, _, rfl, hgood⟩
        · rcases fdalloc_spec hok new l.lim with ⟨base, i', he', -, -, -, hi⟩ | ⟨base, he', -, -, -⟩
          · have hi' : i = new := by
              rw [he'] at he
              cases he
              exact hi.unique hleast
            rw [he]
            simp only
            rw [if_neg (by simp [hi']), ← hi', hs']
            exact ⟨s', _, rfl, hgood⟩
          · rw [he'] at he
            cases he
      · rename_i hlt
        split
        · rename_i hnone
          obtain ⟨s', hs', hgood⟩ := finishdup_good hp h.tables h.counted hok (fun _ => rfl) hf hne (by omega) hshort
            (fun g => by rw [hnone]; simp) (hroom.resolve_left (by rw [hnone]; simp))
          exact ⟨s', _, hs', hgood⟩
        · rename_i g hg
          obtain ⟨hok', hat, hrefs, hlen⟩ := unmap_ok hok new
          have hpos : ∀ x, (s.refs x - if g = x then 1 else 0) + (if g = x then 1 else 0) = s.refs x := by
            intro x
            split
            · rename_i hx
              have h₁ := refsIn_le_refs hp g
              have h₂ := refsIn_pos hg
              subst hx
              omega
            · rfl
          obtain ⟨files', freed, hc, hcounted⟩ := closef_spec (fun x => s.refs x - if g = x then 1 else 0) h.counted hpos
          let s₁ : State := { s with files := files', nfiles := s.nfiles - freed }
          obtain ⟨s', hs', hgood⟩ := finishdup_good (s := s₁) (r := fun x => s.refs x - if g = x then 1 else 0) hp h.tables
            hcounted hok' hrefs ((hat old).trans hf) hne (by omega) hshort
            (fun x => by rw [hat, hg]; simp only [Option.some.injEq]; exact hpos x)
            (by
              have h₁ := h.counted.short f
              have h₂ := hpos f
              rcases hroom with hsame | hroom
              · obtain rfl : g = f := Option.some.inj (hg.symm.trans hsame)
                rw [if_pos rfl] at h₂ ⊢
                omega
              · omega)
          exact ⟨s', _, by rw [hc]; exact hs', hgood⟩

theorem close_good (h : Good s) (hp : s.fdOf p = some fd) (i : Nat) :
    ∃ s' res, close s p fd i = some (s', res) ∧ Good s' := by
  unfold close
  split
  · exact ⟨s, _, rfl, h⟩
  · rename_i f hf
    have hi := lt_of_fileAt hf
    have hrefs : ∀ g, (⟨[], 0, s.procs.set p (some (clear fd i))⟩ : State).refs g + (if f = g then 1 else 0) = s.refs g := by
      intro g
      have h₁ := refs_set hp [] 0 (some (clear fd i)) g
      have h₂ := clear_refsIn hi g
      rw [hf] at h₂
      simp only [slotsOf, Option.some.injEq] at h₁ h₂
      omega
    obtain ⟨files', freed, hc, hcounted⟩ := closef_spec _ h.counted hrefs
    refine ⟨_, _, by rw [hc]; rfl, hcounted, tables_set h.tables fun _ hx => Option.some.inj hx ▸ clear_ok (h.table hp) hi⟩

theorem fdcopy_good (h : Good s) (hp : s.fdOf p = some fd) (hfits : ∀ f, s.refs f + fd.refsIn f < 2 ^ 15) :
    ∃ s' res, fdcopy s fd = some (s', res) ∧ Good s' := by
  have hok := h.table hp
  have hcount : ∀ f, (copyTable fd).openFiles.count f = fd.refsIn f := by
    intro f
    rw [copyTable_openFiles hok, openFiles_count hok]
  obtain ⟨files', hh, hcounted⟩ := hold_all (copyTable fd).openFiles (fun f => s.refs f + fd.refsIn f) h.counted
    (fun f hf => by
      have h₁ := List.count_pos_iff.2 hf
      have h₂ := refsIn_le_refs hp f
      rw [hcount] at h₁
      omega)
    (fun f => by rw [hcount]) hfits
  refine ⟨_, _, by rw [fdcopy, hh]; rfl, hcounted.congr fun f => ?_, ?_⟩
  · simp [State.refs, slotsOf, copyTable_refsIn hok]
  · intro fd' hfd'
    rcases List.mem_append.1 hfd' with hmem | hmem
    · exact h.tables fd' hmem
    · obtain rfl : fd' = copyTable fd := by simpa using hmem
      exact copyTable_ok hok

theorem fdfree_good (h : Good s) (hp : s.fdOf p = some fd) : ∃ s' res, fdfree s p fd = some (s', res) ∧ Good s' := by
  have hok := h.table hp
  have hrefs : ∀ g, (⟨[], 0, s.procs.set p none⟩ : State).refs g + fd.openFiles.count g = s.refs g := by
    intro g
    have h₁ := refs_set hp [] 0 none g
    rw [openFiles_count hok]
    simpa [slotsOf] using h₁
  obtain ⟨files', nfiles', hc, hcounted⟩ := close_all fd.openFiles s.nfiles h.counted hrefs
  rw [fdfree, if_neg (by rw [hok.refcnt]; omega), hc]
  exact ⟨_, _, rfl, hcounted, tables_set h.tables fun _ hx => by cases hx⟩

end Calls

/-! ## Runs -/

/-- Every call of a running system fits. -/
def Fits : Option State → Nat × Op → Prop
  | none, _ => True
  | some s, (p, op) => ∀ fd, s.fdOf p = some fd → op.fits s fd

/-- A file is allocated while slots refer to it, with their number as its
`f_count`; slots below `fd_freefile` are in use and slots above `fd_lastfile` are
not; a copy of a table has every open descriptor; and `fdalloc` returns the
least unused descriptor, or `EMFILE` if there is none. -/
def Intact (s : State) : Prop :=
  (∀ f, count s.files f = if s.refs f = 0 then none else some (s.refs f : Int)) ∧
    ∀ p fd, s.fdOf p = some fd →
      (∀ i < fd.freefile, fd.fileAt i ≠ none) ∧ (∀ i, fd.lastfile < i → fd.fileAt i = none) ∧
        (∀ i, (copyTable fd).fileAt i = fd.fileAt i) ∧
        ∀ want lim, (∀ i, (fdalloc fd want lim).2 = .ok i ↔ IsLeast (unused fd want lim) i) ∧
          ((fdalloc fd want lim).2 = .error .EMFILE ↔ unused fd want lim = ∅)

theorem Good.intact (h : Good s) : Intact s := by
  refine ⟨h.counted.count, fun p fd hp => ?_⟩
  have hok := h.table hp
  refine ⟨hok.below, hok.above, copyTable_fileAt hok, fun want lim => ?_⟩
  rcases fdalloc_spec hok want lim with ⟨base, i, he, -, -, -, hleast⟩ | ⟨base, he, -, -, hempty⟩
  · rw [he]
    refine ⟨fun j => ⟨fun hj => ?_, fun hj => ?_⟩, iff_of_false (by simp) (Set.nonempty_iff_ne_empty.1 ⟨i, hleast.1⟩)⟩
    · cases hj
      exact hleast
    · rw [hleast.unique hj]
  · rw [he]
    exact ⟨fun j => iff_of_false (by simp) fun hj => by simpa [hempty] using hj.1, iff_of_true rfl hempty⟩

theorem Good.call (h : Good s) (hp : s.fdOf p = some fd) {op : Op} (hfits : op.fits s fd) :
    ∃ s' res, call s p fd op = some (s', res) ∧ Good s' := by
  cases op with
  | falloc l => exact ⟨_, _, rfl, falloc_good h hp hfits⟩
  | dup old dst l =>
    rw [Descrip.call, dup]
    simp only [Op.fits] at hfits
    split
    · rename_i hge
      rw [if_pos hge] at hfits
      exact dup2_good h hp hfits
    · rename_i hlt
      rw [if_neg hlt] at hfits
      split
      · exact ⟨s, _, rfl, h⟩
      · rename_i hsome
        obtain ⟨f, hf⟩ := Option.ne_none_iff_exists'.1 hsome
        rcases allocDup_good h hp hf hfits with ⟨base, he, hgood⟩ | ⟨fd', i, s', he, hs', hgood⟩
        · rw [he]
          exact ⟨_, _, rfl, hgood⟩
        · rw [he]
          exact ⟨s', _, hs', hgood⟩
  | dup2 old new l => exact dup2_good h hp hfits
  | dupfd old newmin l =>
    rw [Descrip.call, dupfd]
    split
    · exact ⟨s, _, rfl, h⟩
    · rename_i hsome
      obtain ⟨f, hf⟩ := Option.ne_none_iff_exists'.1 hsome
      split
      · exact ⟨s, _, rfl, h⟩
      · rcases allocDup_good h hp hf hfits with ⟨base, he, hgood⟩ | ⟨fd', i, s', he, hs', hgood⟩
        · rw [he]
          exact ⟨_, _, rfl, hgood⟩
        · rw [he]
          exact ⟨s', _, hs', hgood⟩
  | close i => exact close_good h hp i
  | fdcopy => exact fdcopy_good h hp hfits
  | fdfree => exact fdfree_good h hp

theorem init_good : Good init := by
  have hat : ∀ i, (⟨List.replicate NDFILE Slot.zero, 0, 0, 1⟩ : Filedesc).fileAt i = none := by
    intro i
    simp only [Filedesc.fileAt, List.getElem?_replicate]
    split <;> rfl
  refine ⟨⟨fun f => ?_, fun f => ?_⟩, fun fd hfd => ?_⟩
  · simp [count, init, State.refs, slotsOf, Filedesc.refsIn, List.countP_replicate, Slot.zero]
  · simp [init, State.refs, slotsOf, Filedesc.refsIn, List.countP_replicate, Slot.zero]
  · obtain rfl : fd = ⟨List.replicate NDFILE Slot.zero, 0, 0, 1⟩ := by simpa [init] using hfd
    exact ⟨by simp [NDFILE], fun i _ => hat i, fun i hi => absurd hi (by simp), .inl (by simp), rfl, by simp⟩

/-- In every run whose calls fit, no call panics and every state is intact. -/
theorem descrip_runs (ops : List (Nat × Op)) (h : Along step Fits (some init) ops) :
    ∀ st ∈ states step (some init) ops, ∃ s, st = some s ∧ Intact s := by
  have hgood : ∀ st ∈ states step (some init) ops, ∃ s, st = some s ∧ Good s := by
    refine states_of_along ?_ ⟨init, rfl, init_good⟩ h
    rintro st ⟨p, op⟩ ⟨s, rfl, hs⟩ hfits
    rw [step]
    cases hp : s.fdOf p with
    | none => exact ⟨s, rfl, hs⟩
    | some fd =>
      obtain ⟨s', res, hc, hs'⟩ := hs.call hp (hfits fd hp)
      exact ⟨s', by simp [hc], hs'⟩
  intro st hst
  obtain ⟨s, rfl, hs⟩ := hgood st hst
  exact ⟨s, rfl, hs.intact⟩

/-- Limits of a small system. -/
def small : Limits := ⟨64, 200⟩

/-- A file that is opened, duplicated, inherited and closed. -/
theorem descrip_runs_inherited :
    ∃ s, final step (some init) [(0, .falloc small), (0, .dup2 0 3 small), (0, .fdcopy), (1, .close 0)] = some s ∧
      Intact s ∧ s.refs 0 = 3 ∧ count s.files 0 = some 3 := by
  let fd₁ : Filedesc := ⟨(List.replicate NDFILE Slot.zero).set 0 ⟨some 0, 0⟩, 0, 0, 1⟩
  let fd₂ : Filedesc := { fd₁ with slots := fd₁.slots.set 3 ⟨some 0, 0⟩, lastfile := 3 }
  let s₁ : State := ⟨[some 1], 1, [some fd₁]⟩
  let s₂ : State := ⟨[some 2], 1, [some fd₂]⟩
  have h₁ : step (some init) (0, .falloc small) = some s₁ := by decide +kernel
  have h₂ : step (some s₁) (0, .dup2 0 3 small) = some s₂ := by decide +kernel
  have hfits : Along step Fits (some init) [(0, .falloc small), (0, .dup2 0 3 small), (0, .fdcopy), (1, .close 0)] := by
    refine ⟨fun fd _ i hi => ?_, ?_⟩
    · have : i < 64 := hi.1.2.1
      omega
    rw [h₁]
    refine ⟨fun fd hfd f hf _ _ => ?_, ?_⟩
    · obtain rfl : fd₁ = fd := Option.some.inj hfd
      obtain rfl : 0 = f := Option.some.inj hf
      exact ⟨by decide, .inr (by decide +kernel)⟩
    rw [h₂]
    refine ⟨fun fd hfd f => ?_, fun _ _ => trivial, trivial⟩
    obtain rfl : fd₂ = fd := Option.some.inj hfd
    have hle : fd₂.refsIn f ≤ 20 := List.countP_le_length
    have hrefs : s₂.refs f = fd₂.refsIn f := by simp [State.refs, slotsOf, s₂]
    omega
  have hend : (final step (some init) [(0, .falloc small), (0, .dup2 0 3 small), (0, .fdcopy), (1, .close 0)]) =
      some ⟨[some 3], 1, [some fd₂, some (clear fd₂ 0)]⟩ := by decide +kernel
  obtain ⟨s, hs, hintact⟩ := descrip_runs _ hfits _ (final_mem_states step _ _)
  obtain rfl := Option.some.inj (hend.symm.trans hs)
  exact ⟨_, hend, hintact, by decide +kernel, rfl⟩

/-! ## A count that overflows -/

/-- A table with all of its first slots for file `0`. -/
def fullTable : Filedesc := ⟨List.replicate NDFILE ⟨some 0, 0⟩, 19, 19, 1⟩

/-- The state after `n` processes more have been forked with the table. -/
def forked (n : Nat) : State := ⟨[some (short (NDFILE * (n + 1)))], 1, List.replicate (n + 1) (some fullTable)⟩

theorem short_short_add (x y : Int) : short (short x + y) = short (x + y) := by
  unfold short
  omega

theorem hold_replicate (c : Int) (k : Nat) :
    (List.replicate k 0).foldlM hold [some (short c)] = some [some (short (c + k))] := by
  induction k generalizing c with
  | zero => simp
  | succ k ih =>
    have h₁ : hold [some (short c)] 0 = some [some (short (c + 1))] := by
      simp [hold, count, short_short_add]
    rw [List.replicate_succ, List.foldlM_cons, h₁]
    simp only [Option.bind_eq_bind, Option.bind_some, ih]
    rw [show c + 1 + (k : Int) = c + ((k + 1 : Nat) : Int) by push_cast; ring]

theorem forked_fdOf (n : Nat) : (forked n).fdOf 0 = some fullTable := by simp [forked, State.fdOf]

theorem forked_refs (n : Nat) : (forked n).refs 0 = (n + 1) * 20 := by
  have hfull : slotsOf 0 (some fullTable) = 20 := by decide
  simp [State.refs, forked, List.map_replicate, hfull]

theorem forked_fork (n : Nat) : step (some (forked n)) (0, .fdcopy) = some (forked (n + 1)) := by
  have hcopy : copyTable fullTable = fullTable := by decide
  have hopen : fullTable.openFiles = List.replicate NDFILE 0 := by decide
  have hp := forked_fdOf n
  have hh : (List.replicate NDFILE 0).foldlM hold (forked n).files = some (forked (n + 1)).files := by
    have h := hold_replicate (NDFILE * (n + 1)) NDFILE
    have he : (NDFILE * (n + 1) + NDFILE : Int) = NDFILE * ((n + 1 : Nat) + 1) := by
      push_cast
      ring
    rw [he] at h
    exact h
  rw [step, hp]
  simp only [call, fdcopy, hcopy, hopen, hh, Option.bind_eq_bind, Option.bind_some]
  simp [forked, List.replicate_succ']

theorem forked_run (n : Nat) : final step (some (forked 0)) (List.replicate n (0, .fdcopy)) = some (forked n) := by
  have hrun : ∀ m, final step (some (forked m)) (List.replicate n (0, .fdcopy)) = some (forked (m + n)) := by
    induction n with
    | zero => exact fun m => rfl
    | succ n ih =>
      intro m
      rw [List.replicate_succ, final, List.foldl_cons, forked_fork]
      exact (ih (m + 1)).trans (by rw [Nat.add_right_comm, Nat.add_assoc])
  simpa using hrun 0

/-- A file with twenty descriptors in each of 1639 processes: its `f_count` has
wrapped around, and the next `close` panics. -/
theorem descrip_overflow :
    ∃ ops, ∃ s, final step (some init) ops = some s ∧ s.refs 0 = 32780 ∧ count s.files 0 = some (-32756) ∧
      ¬Intact s ∧ step (some s) (0, .close 0) = none := by
  have hstart : final step (some init) ((0, .falloc small) :: List.replicate 19 (0, .dup 0 0 small)) = some (forked 0) := by
    decide +kernel
  have hrefs : (forked 1638).refs 0 = 32780 := forked_refs 1638
  have hcount : count (forked 1638).files 0 = some (-32756) := by decide
  refine ⟨((0, .falloc small) :: List.replicate 19 (0, .dup 0 0 small)) ++ List.replicate 1638 (0, .fdcopy), forked 1638,
    ?_, hrefs, hcount, fun hintact => ?_, ?_⟩
  · rw [final, List.foldl_append]
    exact (congrArg (fun st => final step st (List.replicate 1638 (0, .fdcopy))) hstart).trans (forked_run 1638)
  · have h0 := hintact.1 0
    rw [hrefs, hcount] at h0
    simp at h0
  · have hat : fullTable.fileAt 0 = some 0 := by decide
    have hc : closef (forked 1638).files 0 = none := by decide
    rw [step, forked_fdOf]
    simp only [call, close, hat, hc]
    rfl

end BsdKernel.Descrip
