import BsdKernel.Lib.Trace
import Mathlib.Data.List.Nodup
import Mathlib.Logic.Function.Basic
/-!
# In-core inodes

`iget` of `ufs/ufs_inode.c` with `getnewvnode` and `vget` of `kern/fs/vnode.c`, run by
any number of processes that are switched out where they sleep. An `iget` that finds
no inode on the hash chain calls `getnewvnode`, which may sleep in `malloc` or while
it reclaims another vnode, and then links its inode without looking again.

A step is what a process does up to its next sleep. The hash chains are kept as one
list: the chain of an inode is determined by its key, and the list has the order of
each chain. `iget_runs`: in every run in which no search misses a file while another
`iget` is on its way to link it, there is at most one inode for a file, and the
references to a file that are held are to one inode.
-/

namespace BsdKernel.Ufs

open BsdKernel.Lib

/-- `i_dev` and `i_number` -/
structure Key where
  dev : Nat
  number : Nat
  deriving DecidableEq, Repr

/-- An inode on a hash chain, by its vnode. -/
structure Inode where
  vp : Nat
  key : Key
  deriving DecidableEq, Repr

/-- Where a process is in `iget`. -/
inductive Pc where
  | idle
  /-- at `loop`, to search the chain -/
  | search (key : Key)
  /-- in `getnewvnode` -/
  | alloc (key : Key)
  /-- in `bread` or `checkalias`, with its inode linked and locked -/
  | reading (key : Key) (vp : Nat)
  deriving DecidableEq, Repr

structure State where
  /-- the hash chains -/
  chain : List Inode
  /-- `v_usecount` -/
  usecount : Nat → Nat
  /-- `VXLOCK` -/
  xlock : Nat → Bool
  /-- `ILOCKED` -/
  locked : Nat → Bool
  pc : Nat → Pc
  /-- the references that `iget` has returned and that are not released -/
  held : List Inode
  /-- the references that others have taken to vnodes in use -/
  refs : Nat → Nat

variable (s : State)

/-- `remque` of the inode of a vnode. -/
@[simp] def State.unlink (vp : Nat) : State := { s with chain := s.chain.filter fun ip => ip.vp ≠ vp }

@[simp] def State.goto (p : Nat) (pc : Pc) : State := { s with pc := Function.update s.pc p pc }

@[simp] def State.setUse (vp n : Nat) : State := { s with usecount := Function.update s.usecount vp n }

@[simp] def State.setLocked (vp : Nat) (b : Bool) : State := { s with locked := Function.update s.locked vp b }

@[simp] def State.setXlock (vp : Nat) (b : Bool) : State := { s with xlock := Function.update s.xlock vp b }

/-- `iget` returns an inode. -/
@[simp] def State.return (p : Nat) (ip : Inode) : State := { s.goto p .idle with held := ip :: s.held }

/-- The search of `iget` at `loop`: a process that has to sleep comes back to it. -/
def search (p : Nat) (key : Key) : State :=
  match s.chain.find? fun ip => ip.key = key with
  | none => s.goto p (.alloc key)
  | some ip =>
    if s.locked ip.vp then s
    -- `vget` sleeps while the vnode is cleaned
    else if s.xlock ip.vp then s
    else ((s.setUse ip.vp (s.usecount ip.vp + 1)).setLocked ip.vp true).return p ip

/-- `getnewvnode` returns `vp`, and `iget` links its inode and locks it. -/
def link (p : Nat) (key : Key) (vp : Nat) : State :=
  (({ s with chain := ⟨vp, key⟩ :: s.chain }.setUse vp 1).setLocked vp true).goto p (.reading key vp)

/-- `iput` -/
def iput (vp : Nat) : State := (s.setLocked vp false).setUse vp (s.usecount vp - 1)

/-- `checkalias` has found the vnode `nvp`: its inode replaces the one that was linked, which `iput` reclaims. -/
def takeAlias (p : Nat) (key : Key) (vp nvp : Nat) : State :=
  let s := (s.setUse nvp (s.usecount nvp + 1)).setLocked nvp true
  let s := (iput { s with chain := ⟨nvp, key⟩ :: s.chain } vp).unlink vp
  s.return p ⟨nvp, key⟩

/-- What happens between two switches. -/
inductive Op where
  | call (p : Nat) (key : Key)
  | search (p : Nat)
  /-- `getnewvnode` fails. -/
  | full (p : Nat)
  | link (p vp : Nat)
  | readError (p : Nat)
  /-- The inode is a fifo, which is not supported. -/
  | readFifo (p : Nat)
  | readAlias (p nvp : Nat)
  | readDone (p : Nat)
  /-- `vclean` of a vnode without references, by `getnewvnode`, `ufs_inactive` or `checkalias`, begins. -/
  | vclean (vp : Nat)
  /-- `vclean` has called `ufs_reclaim`. -/
  | reclaimed (vp : Nat)
  | lock (vp : Nat)
  | unlock (vp : Nat)
  | vref (vp : Nat)
  | vrele (vp : Nat)
  /-- A reference that `iget` returned is released. -/
  | release (ip : Inode)

def step (s : State) : Op → State
  | .call p key => if s.pc p = .idle then s.goto p (.search key) else s
  | .search p =>
    match s.pc p with
    | .search key => search s p key
    | _ => s
  | .full p =>
    match s.pc p with
    | .alloc _ => s.goto p .idle
    | _ => s
  | .link p vp =>
    match s.pc p with
    | .alloc key => link s p key vp
    | _ => s
  | .readError p =>
    match s.pc p with
    | .reading _ vp => (iput (s.unlink vp) vp).goto p .idle
    | _ => s
  | .readFifo p =>
    match s.pc p with
    | .reading _ vp => (iput s vp).goto p .idle
    | _ => s
  | .readAlias p nvp =>
    match s.pc p with
    | .reading key vp => takeAlias s p key vp nvp
    | _ => s
  | .readDone p =>
    match s.pc p with
    | .reading key vp => s.return p ⟨vp, key⟩
    | _ => s
  | .vclean vp => s.setXlock vp true
  | .reclaimed vp => ((s.unlink vp).setXlock vp false).setLocked vp false
  | .lock vp => s.setLocked vp true
  | .unlock vp => s.setLocked vp false
  | .vref vp => { s.setUse vp (s.usecount vp + 1) with refs := Function.update s.refs vp (s.refs vp + 1) }
  | .vrele vp => { s.setUse vp (s.usecount vp - 1) with refs := Function.update s.refs vp (s.refs vp - 1) }
  | .release ip => { s.setUse ip.vp (s.usecount ip.vp - 1) with held := s.held.erase ip }

/-- No vnode is in use. -/
def start : State := ⟨[], fun _ => 0, fun _ => false, fun _ => false, fun _ => .idle, [], fun _ => 0⟩

/-- The vnode is not in use, and `getnewvnode` may return it. -/
def State.Free (vp : Nat) : Prop := (∀ ip ∈ s.chain, ip.vp ≠ vp) ∧ s.usecount vp = 0 ∧ s.xlock vp = false

/-- What the rest of the kernel keeps to: vnodes are cleaned that are not in use, locks are released by
their holders, and references are those one has. -/
def Legal (s : State) : Op → Prop
  | .link _ vp => s.Free vp
  | .readAlias _ nvp => (∀ ip ∈ s.chain, ip.vp ≠ nvp) ∧ s.xlock nvp = false
  | .vclean vp => s.usecount vp = 0
  | .reclaimed vp => s.xlock vp = true
  | .unlock vp => ∀ p key, s.pc p ≠ .reading key vp
  | .vref vp => 0 < s.refs vp ∨ ∃ ip ∈ s.held, ip.vp = vp
  | .vrele vp => 0 < s.refs vp
  | .release ip => ip ∈ s.held
  | _ => True

/-- The search does not miss a file that another `iget` is about to link. -/
def Fits (s : State) : Op → Prop
  | .search p => ∀ key, s.pc p = .search key → (∀ ip ∈ s.chain, ip.key ≠ key) → ∀ q, s.pc q ≠ .alloc key
  | _ => True

/-- At most one inode per file, and one inode for all references to a file. -/
structure Good (s : State) : Prop where
  unique : s.chain.Pairwise fun a b => a.key ≠ b.key
  same : ∀ a ∈ s.held, ∀ b ∈ s.held, a.key = b.key → a = b

/-! ## The invariant -/

/-- A process that reads its inode has it to itself, and a process in `getnewvnode` is the only one for its
file, which has no inode. -/
structure Inv (s : State) : Prop where
  nodup : s.chain.Nodup
  keys : ∀ a ∈ s.chain, ∀ b ∈ s.chain, a.key = b.key → a = b
  vps : ∀ a ∈ s.chain, ∀ b ∈ s.chain, a.vp = b.vp → a = b
  held_on : ∀ a ∈ s.held, a ∈ s.chain
  reading_on : ∀ p key vp, s.pc p = .reading key vp → ⟨vp, key⟩ ∈ s.chain
  reading_one : ∀ p q key key' vp, s.pc p = .reading key vp → s.pc q = .reading key' vp → p = q
  reading_alone : ∀ p key vp, s.pc p = .reading key vp →
    s.locked vp = true ∧ 0 < s.usecount vp ∧ s.refs vp = 0 ∧ ∀ a ∈ s.held, a.vp ≠ vp
  count : ∀ vp, s.held.countP (fun a => a.vp = vp) + s.refs vp ≤ s.usecount vp
  xlocked : ∀ vp, s.xlock vp = true → s.usecount vp = 0
  alloc_free : ∀ p key, s.pc p = .alloc key → ∀ ip ∈ s.chain, ip.key ≠ key
  alloc_one : ∀ p q key, s.pc p = .alloc key → s.pc q = .alloc key → p = q

section Steps
variable {s} {p vp nvp : Nat} {key : Key} {ip : Inode}

theorem Inv.goto (h : Inv s) {pc : Pc} (hr : ∀ key vp, pc ≠ .reading key vp) (ha : ∀ key, pc ≠ .alloc key) :
    Inv (s.goto p pc) := by
  obtain ⟨nodup, keys, vps, held_on, reading_on, reading_one, reading_alone, count, xlocked, alloc_free, alloc_one⟩ := h
  constructor <;> simp only [State.goto, Function.update_apply] <;> grind

/-- A search that misses, for a file that no one else is about to link. -/
theorem Inv.miss (h : Inv s) (hfree : ∀ ip ∈ s.chain, ip.key ≠ key) (hone : ∀ q, s.pc q ≠ .alloc key) :
    Inv (s.goto p (.alloc key)) := by
  obtain ⟨nodup, keys, vps, held_on, reading_on, reading_one, reading_alone, count, xlocked, alloc_free, alloc_one⟩ := h
  constructor <;> simp only [State.goto, Function.update_apply] <;> grind

theorem Inv.hit (h : Inv s) (hip : ip ∈ s.chain) (hl : s.locked ip.vp = false) (hx : s.xlock ip.vp = false) :
    Inv (((s.setUse ip.vp (s.usecount ip.vp + 1)).setLocked ip.vp true).return p ip) := by
  obtain ⟨nodup, keys, vps, held_on, reading_on, reading_one, reading_alone, count, xlocked, alloc_free, alloc_one⟩ := h
  constructor <;>
    simp only [State.return, State.goto, State.setUse, State.setLocked, Function.update_apply, List.countP_cons] <;> grind

theorem Inv.link (h : Inv s) (hpc : s.pc p = .alloc key) (hfree : s.Free vp) : Inv (link s p key vp) := by
  obtain ⟨hoff, huse, hx⟩ := hfree
  have hheld : ∀ a ∈ s.held, a.vp ≠ vp := fun a ha => hoff a (h.held_on a ha)
  have hread : ∀ q key', s.pc q ≠ .reading key' vp := fun q key' hq => hoff _ (h.reading_on q key' vp hq) rfl
  obtain ⟨nodup, keys, vps, held_on, reading_on, reading_one, reading_alone, count, xlocked, alloc_free, alloc_one⟩ := h
  constructor <;>
    simp only [Ufs.link, State.goto, State.setUse, State.setLocked, Function.update_apply, List.nodup_cons] <;> grind

theorem Inv.count_reading (h : Inv s) (hpc : s.pc p = .reading key vp) : s.held.countP (fun a => a.vp = vp) = 0 := by
  rw [List.countP_eq_zero]
  intro a ha
  simpa using (h.reading_alone p key vp hpc).2.2.2 a ha

theorem Inv.readError (h : Inv s) (hpc : s.pc p = .reading key vp) : Inv ((iput (s.unlink vp) vp).goto p .idle) := by
  have hcount := h.count_reading hpc
  have halone := h.reading_alone p key vp hpc
  obtain ⟨nodup, keys, vps, held_on, reading_on, reading_one, reading_alone, count, xlocked, alloc_free, alloc_one⟩ := h
  constructor <;>
    simp only [iput, State.unlink, State.goto, State.setUse, State.setLocked, Function.update_apply, List.mem_filter]
  · exact nodup.filter _
  all_goals grind

theorem Inv.readFifo (h : Inv s) (hpc : s.pc p = .reading key vp) : Inv ((iput s vp).goto p .idle) := by
  have hcount := h.count_reading hpc
  have halone := h.reading_alone p key vp hpc
  obtain ⟨nodup, keys, vps, held_on, reading_on, reading_one, reading_alone, count, xlocked, alloc_free, alloc_one⟩ := h
  constructor <;> simp only [iput, State.goto, State.setUse, State.setLocked, Function.update_apply] <;> grind

theorem Inv.readDone (h : Inv s) (hpc : s.pc p = .reading key vp) : Inv (s.return p ⟨vp, key⟩) := by
  have hcount := h.count_reading hpc
  obtain ⟨nodup, keys, vps, held_on, reading_on, reading_one, reading_alone, count, xlocked, alloc_free, alloc_one⟩ := h
  constructor <;> simp only [State.return, State.goto, Function.update_apply, List.countP_cons] <;> grind

theorem Inv.readAlias (h : Inv s) (hpc : s.pc p = .reading key vp) (hoff : ∀ ip ∈ s.chain, ip.vp ≠ nvp)
    (hx : s.xlock nvp = false) : Inv (takeAlias s p key vp nvp) := by
  have hcount := h.count_reading hpc
  have halone := h.reading_alone p key vp hpc
  have hne : vp ≠ nvp := hoff _ (h.reading_on p key vp hpc)
  have hread : ∀ q key', s.pc q ≠ .reading key' nvp := fun q key' hq => hoff _ (h.reading_on q key' nvp hq) rfl
  obtain ⟨nodup, keys, vps, held_on, reading_on, reading_one, reading_alone, count, xlocked, alloc_free, alloc_one⟩ := h
  constructor <;>
    simp only [takeAlias, iput, State.return, State.unlink, State.goto, State.setUse, State.setLocked, Function.update_apply,
      List.mem_filter, List.countP_cons]
  · exact (List.nodup_cons.2 ⟨fun hm => hoff _ hm rfl, nodup⟩).filter _
  all_goals grind

theorem Inv.vclean (h : Inv s) (huse : s.usecount vp = 0) : Inv (s.setXlock vp true) := by
  obtain ⟨nodup, keys, vps, held_on, reading_on, reading_one, reading_alone, count, xlocked, alloc_free, alloc_one⟩ := h
  constructor <;> simp only [State.setXlock, Function.update_apply] <;> grind

theorem Inv.reclaimed (h : Inv s) (hx : s.xlock vp = true) :
    Inv (((s.unlink vp).setXlock vp false).setLocked vp false) := by
  have huse := h.xlocked vp hx
  have hcount := h.count vp
  have hheld : ∀ a ∈ s.held, a.vp ≠ vp := by
    intro a ha he
    have : 0 < s.held.countP fun a => a.vp = vp := List.countP_pos_iff.2 ⟨a, ha, by simpa using he⟩
    omega
  obtain ⟨nodup, keys, vps, held_on, reading_on, reading_one, reading_alone, count, xlocked, alloc_free, alloc_one⟩ := h
  constructor <;>
    simp only [State.unlink, State.setXlock, State.setLocked, Function.update_apply, List.mem_filter]
  · exact nodup.filter _
  all_goals grind

theorem Inv.lock (h : Inv s) : Inv (s.setLocked vp true) := by
  obtain ⟨nodup, keys, vps, held_on, reading_on, reading_one, reading_alone, count, xlocked, alloc_free, alloc_one⟩ := h
  constructor <;> simp only [State.setLocked, Function.update_apply] <;> grind

theorem Inv.unlock (h : Inv s) (hno : ∀ p key, s.pc p ≠ .reading key vp) : Inv (s.setLocked vp false) := by
  obtain ⟨nodup, keys, vps, held_on, reading_on, reading_one, reading_alone, count, xlocked, alloc_free, alloc_one⟩ := h
  constructor <;> simp only [State.setLocked, Function.update_apply] <;> grind

theorem Inv.vref (h : Inv s) (hr : 0 < s.refs vp ∨ ∃ ip ∈ s.held, ip.vp = vp) :
    Inv { s.setUse vp (s.usecount vp + 1) with refs := Function.update s.refs vp (s.refs vp + 1) } := by
  have huse : 0 < s.usecount vp := by
    have hcount := h.count vp
    rcases hr with hr | ⟨ip, hip, he⟩
    · omega
    · have : 0 < s.held.countP fun a => a.vp = vp := List.countP_pos_iff.2 ⟨ip, hip, by simpa using he⟩
      omega
  obtain ⟨nodup, keys, vps, held_on, reading_on, reading_one, reading_alone, count, xlocked, alloc_free, alloc_one⟩ := h
  constructor <;> simp only [State.setUse, Function.update_apply] <;> grind

theorem Inv.vrele (h : Inv s) (hr : 0 < s.refs vp) :
    Inv { s.setUse vp (s.usecount vp - 1) with refs := Function.update s.refs vp (s.refs vp - 1) } := by
  obtain ⟨nodup, keys, vps, held_on, reading_on, reading_one, reading_alone, count, xlocked, alloc_free, alloc_one⟩ := h
  constructor <;> simp only [State.setUse, Function.update_apply] <;> grind

theorem countP_erase_of_mem {l : List Inode} (hip : ip ∈ l) (v : Nat) :
    (l.erase ip).countP (fun a => a.vp = v) + (if ip.vp = v then 1 else 0) = l.countP (fun a => a.vp = v) := by
  have := (List.perm_cons_erase hip).countP_eq fun a => decide (a.vp = v)
  rw [this, List.countP_cons]
  simp

theorem Inv.release (h : Inv s) (hip : ip ∈ s.held) :
    Inv { s.setUse ip.vp (s.usecount ip.vp - 1) with held := s.held.erase ip } := by
  have herase := countP_erase_of_mem hip
  obtain ⟨nodup, keys, vps, held_on, reading_on, reading_one, reading_alone, count, xlocked, alloc_free, alloc_one⟩ := h
  constructor <;> simp only [State.setUse, Function.update_apply]
  case count =>
    intro v
    have := herase v
    have := count v
    split_ifs with hv
    · subst hv
      rw [if_pos rfl] at *
      omega
    · omega
  all_goals grind

theorem Inv.search (h : Inv s) (hone : (∀ ip ∈ s.chain, ip.key ≠ key) → ∀ q, s.pc q ≠ .alloc key) :
    Inv (search s p key) := by
  unfold Ufs.search
  cases hf : s.chain.find? fun ip => ip.key = key with
  | none =>
    have hfree : ∀ ip ∈ s.chain, ip.key ≠ key := by simpa using List.find?_eq_none.1 hf
    exact h.miss hfree (hone hfree)
  | some ip =>
    simp only
    split_ifs with hl hx
    · exact h
    · exact h
    · exact h.hit (List.mem_of_find?_eq_some hf) (by simpa using hl) (by simpa using hx)

theorem Inv.step (h : Inv s) (op : Op) (hlegal : Legal s op) (hfits : Fits s op) : Inv (step s op) := by
  cases op with
  | call p key =>
    unfold Ufs.step
    simp only
    split_ifs
    · exact h.goto nofun nofun
    · exact h
  | search p =>
    unfold Ufs.step
    simp only
    split
    · exact h.search fun hfree => hfits _ ‹_› hfree
    · exact h
  | full p =>
    unfold Ufs.step
    simp only
    split
    · exact h.goto nofun nofun
    · exact h
  | link p vp =>
    unfold Ufs.step
    simp only
    split
    · exact h.link ‹_› hlegal
    · exact h
  | readError p =>
    unfold Ufs.step
    simp only
    split
    · exact h.readError ‹_›
    · exact h
  | readFifo p =>
    unfold Ufs.step
    simp only
    split
    · exact h.readFifo ‹_›
    · exact h
  | readAlias p nvp =>
    unfold Ufs.step
    simp only
    split
    · exact h.readAlias ‹_› hlegal.1 hlegal.2
    · exact h
  | readDone p =>
    unfold Ufs.step
    simp only
    split
    · exact h.readDone ‹_›
    · exact h
  | vclean vp => exact h.vclean hlegal
  | reclaimed vp => exact h.reclaimed hlegal
  | lock vp => exact h.lock
  | unlock vp => exact h.unlock hlegal
  | vref vp => exact h.vref hlegal
  | vrele vp => exact h.vrele hlegal
  | release ip => exact h.release hlegal

theorem Inv.good (h : Inv s) : Good s where
  unique := h.nodup.imp_of_mem fun ha hb hne he => hne (h.keys _ ha _ hb he)
  same := fun a ha b hb he => h.keys a (h.held_on a ha) b (h.held_on b hb) he

end Steps

theorem inv_start : Inv start where
  nodup := List.nodup_nil
  keys := nofun
  vps := nofun
  held_on := nofun
  reading_on := nofun
  reading_one := nofun
  reading_alone := nofun
  count := fun _ => Nat.le_refl 0
  xlocked := nofun
  alloc_free := nofun
  alloc_one := nofun

/-- In every run in which no search misses a file that another `iget` is about to link, there is at most one
inode per file, and all references to a file are to one inode. -/
theorem iget_runs (ops : List Op) (hl : Along step Legal start ops) (hf : Along step Fits start ops) :
    ∀ s ∈ states step start ops, Good s := by
  have hrun : ∀ s ∈ states step start ops, Inv s :=
    states_of_along (fun s op h hok => h.step op hok.1 hok.2) inv_start ((along_and step Legal Fits start ops).2 ⟨hl, hf⟩)
  exact fun s hs => (hrun s hs).good

/-- The second process looks for the file when the first one has linked it. -/
def inTurn : List Op :=
  [.call 1 ⟨0, 5⟩, .search 1, .link 1 7, .call 2 ⟨0, 5⟩, .search 2, .readDone 1, .unlock 7, .search 2]

theorem iget_runs_in_turn :
    Along step Legal start inTurn ∧ Along step Fits start inTurn ∧ ∀ s ∈ states step start inTurn, Good s := by
  have hl : Along step Legal start inTurn := by
    refine ⟨trivial, trivial, ⟨nofun, rfl, rfl⟩, trivial, trivial, trivial, ?_, trivial, trivial⟩
    intro p key
    by_cases h₁ : p = 1 <;> by_cases h₂ : p = 2 <;> simp [step, search, link, start, h₁, h₂]
  have hf : Along step Fits start inTurn := by
    refine ⟨trivial, ?_, trivial, trivial, ?_, trivial, trivial, ?_, trivial⟩
    · intro key hk hfree q
      by_cases h₁ : q = 1 <;> simp [step, start, h₁]
    · intro key hk hfree
      obtain rfl : (⟨0, 5⟩ : Key) = key := Pc.search.inj hk
      exact absurd rfl (hfree ⟨7, ⟨0, 5⟩⟩ (by simp [step, search, link, start]))
    · intro key hk hfree
      obtain rfl : (⟨0, 5⟩ : Key) = key := Pc.search.inj hk
      exact absurd rfl (hfree ⟨7, ⟨0, 5⟩⟩ (by simp [step, search, link, start]))
  exact ⟨hl, hf, iget_runs inTurn hl hf⟩

/-- Both processes search before either has its vnode. -/
def atOnce : List Op :=
  [.call 1 ⟨0, 5⟩, .search 1, .call 2 ⟨0, 5⟩, .search 2, .link 1 7, .link 2 8, .readDone 1, .readDone 2]

/-- Two processes that open a file at once get an inode each. -/
theorem iget_linked_twice : Along step Legal start atOnce ∧
    (final step start atOnce).chain = [⟨8, ⟨0, 5⟩⟩, ⟨7, ⟨0, 5⟩⟩] ∧
    (final step start atOnce).held = [⟨8, ⟨0, 5⟩⟩, ⟨7, ⟨0, 5⟩⟩] ∧ ¬∀ s ∈ states step start atOnce, Good s := by
  refine ⟨⟨trivial, trivial, trivial, trivial, ⟨nofun, rfl, rfl⟩, ⟨?_, rfl, rfl⟩, trivial, trivial, trivial⟩, rfl, rfl,
    fun hall => ?_⟩
  · simp [step, search, link, start]
  · have := (hall _ (final_mem_states step start atOnce)).same ⟨8, ⟨0, 5⟩⟩ (by decide) ⟨7, ⟨0, 5⟩⟩ (by decide) rfl
    cases this

end BsdKernel.Ufs
