import BsdKernel.Lib.Trace
import Mathlib.Algebra.BigOperators.Group.Finset.Piecewise
/-!
# Promiscuous listeners

`bpfopen`, `bpfclose`, the `BIOCSETIF` and `BIOCPROMISC` requests of `bpfioctl`, and
`bpf_attachd`, `bpf_detachd` and `ifpromisc` of `net/bpf.c`, with the changes of the
interface flags that `net/if.c` makes. A descriptor is known by its minor number and
an interface by its place in `bpf_iflist`; the list of listeners is in the order of
its links.

`ifpromisc` counts a listener before it asks the driver, and refuses to count it out
while the interface is down. `promisc_runs`: the count and the flag of each interface
are right and `bpf_detachd` does not panic exactly in the runs in which the driver
grants the first request, no promiscuous listener leaves while its interface is down
or the driver refuses the last one, and no flag change touches `IFF_PROMISC`.
-/

namespace BsdKernel.BpfDev

open BsdKernel.Lib

variable {d j : Nat} {driver : Option Errno} {s : State}

inductive Errno where
  | enxio | ebusy | einval | enetdown | enobufs
  /-- of a driver -/
  | driver (code : Nat)
  deriving DecidableEq, Repr

/-- What the requests read of `struct ifnet`: `IFF_UP` and `IFF_PROMISC` of `if_flags`, and `if_pcount`. -/
structure Ifnet where
  up : Bool
  promisc : Bool
  pcount : Int
  deriving DecidableEq, Repr

/-- `struct bpf_if` -/
structure BpfIf where
  ifp : Ifnet
  dlist : List Nat
  deriving DecidableEq, Repr

/-- `struct bpf_d`: `D_ISFREE`, `bd_bif`, `bd_promisc`, and whether there are buffers. -/
structure BpfD where
  free : Bool
  bdBif : Option Nat
  promisc : Bool
  sbuf : Bool
  deriving DecidableEq, Repr

/-- `bpf_iflist`, of `nif` interfaces, and `bpf_dtab`, of `nbpfilter` descriptors -/
structure State where
  nif : Nat
  nbpfilter : Nat
  ifs : Nat → BpfIf
  dtab : Nat → BpfD

/-- The interfaces as they are attached, and no descriptor open. -/
def start (nif nbpfilter : Nat) (up : Nat → Bool) : State where
  nif
  nbpfilter
  ifs i := ⟨⟨up i, false, 0⟩, []⟩
  dtab _ := ⟨true, none, false, false⟩

namespace State

def setIf (s : State) (i : Nat) (b : BpfIf) : State := { s with ifs := Function.update s.ifs i b }

def setD (s : State) (d : Nat) (b : BpfD) : State := { s with dtab := Function.update s.dtab d b }

end State

/-- `ifpromisc`, with the errno and the interface it leaves; `driver` is what `if_ioctl` returns. -/
def ifpromisc (ifp : Ifnet) (pswitch : Bool) (driver : Option Errno) : Option Errno × Ifnet :=
  if ifp.up = false then (some .enetdown, ifp)
  else if pswitch then
    if ifp.pcount ≠ 0 then (none, { ifp with pcount := ifp.pcount + 1 })
    else (driver, { ifp with pcount := ifp.pcount + 1, promisc := true })
  else
    if ifp.pcount - 1 > 0 then (none, { ifp with pcount := ifp.pcount - 1 })
    else (driver, { ifp with pcount := ifp.pcount - 1, promisc := false })

def bpfAttachd (s : State) (d i : Nat) : State :=
  let b := s.ifs i
  (s.setD d { s.dtab d with bdBif := some i }).setIf i { b with dlist := d :: b.dlist }

/-- `bpf_detachd` of `d` from its interface `i`; `none` is a panic. -/
def bpfDetachd (s : State) (d i : Nat) (driver : Option Errno) : Option State :=
  let b := s.ifs i
  let (error, ifp) := if (s.dtab d).promisc then ifpromisc b.ifp false driver else (none, b.ifp)
  if error ≠ none then none
  else if d ∉ b.dlist then none
  else some ((s.setIf i ⟨ifp, b.dlist.erase d⟩).setD d { s.dtab d with bdBif := none, promisc := false })

def bpfopen (s : State) (d : Nat) : Option Errno × State :=
  if d ≥ s.nbpfilter then (some .enxio, s)
  else if (s.dtab d).free = false then (some .ebusy, s)
  else (none, s.setD d ⟨false, none, false, false⟩)

def bpfclose (s : State) (d : Nat) (driver : Option Errno) : Option State :=
  let detached := match (s.dtab d).bdBif with
    | some i => bpfDetachd s d i driver
    | none => some s
  detached.map fun s' => s'.setD d { s'.dtab d with free := true }

/-- `bpf_setif` for the interface `i`; `alloc` says whether `bpf_allocbufs` gets its memory. -/
def bpfSetif (s : State) (d i : Nat) (alloc : Bool) (driver : Option Errno) : Option (Option Errno × State) :=
  if s.nif ≤ i then some (some .enxio, s)
  else if (s.ifs i).ifp.up = false then some (some .enetdown, s)
  else if (s.dtab d).sbuf = false ∧ alloc = false then some (some .enobufs, s)
  else
    let s := s.setD d { s.dtab d with sbuf := true }
    match (s.dtab d).bdBif with
    | none => some (none, bpfAttachd s d i)
    | some j =>
      if i = j then some (none, s)
      else (bpfDetachd s d j driver).map fun s' => (none, bpfAttachd s' d i)

/-- `BIOCPROMISC` -/
def biocpromisc (s : State) (d : Nat) (driver : Option Errno) : Option Errno × State :=
  match (s.dtab d).bdBif with
  | none => (some .einval, s)
  | some i =>
    if (s.dtab d).promisc then (none, s)
    else
      let b := s.ifs i
      let (error, ifp) := ifpromisc b.ifp true driver
      let s := s.setIf i { b with ifp }
      if error = none then (none, s.setD d { s.dtab d with promisc := true }) else (error, s)

/-- The requests; `driver` is what the driver of the interface answers if it is asked. -/
inductive Op where
  | open (d : Nat)
  | setif (d i : Nat) (alloc : Bool) (driver : Option Errno)
  | promisc (d : Nat) (driver : Option Errno)
  | close (d : Nat) (driver : Option Errno)
  | ifDown (i : Nat)
  | ifUp (i : Nat)
  /-- `SIOCSIFFLAGS`; neither flag is one of `IFF_CANTCHANGE` -/
  | ifflags (i : Nat) (up promisc : Bool)
  deriving DecidableEq, Repr

/-- An open descriptor; the device switch calls the driver for no other. -/
def State.isOpen (s : State) (d : Nat) : Prop := d < s.nbpfilter ∧ (s.dtab d).free = false

instance (s : State) (d : Nat) : Decidable (s.isOpen d) := inferInstanceAs (Decidable (_ ∧ _))

def run (s : State) : Op → Option State
  | .open d => some (bpfopen s d).2
  | .setif d i alloc driver => if s.isOpen d then (bpfSetif s d i alloc driver).map Prod.snd else some s
  | .promisc d driver => if s.isOpen d then some (biocpromisc s d driver).2 else some s
  | .close d driver => if s.isOpen d then bpfclose s d driver else some s
  | .ifDown i => some (s.setIf i { s.ifs i with ifp := { (s.ifs i).ifp with up := false } })
  | .ifUp i => some (s.setIf i { s.ifs i with ifp := { (s.ifs i).ifp with up := true } })
  | .ifflags i up promisc => some (s.setIf i { s.ifs i with ifp := { (s.ifs i).ifp with up, promisc } })

/-- The system takes no step after a panic. -/
def step (o : Option State) (op : Op) : Option State := o.bind (run · op)

/-! ## The accounting -/

/-- A descriptor that listens promiscuously on `i`. -/
def Listens (b : BpfD) (i : Nat) : Prop := b.bdBif = some i ∧ b.promisc = true

instance (b : BpfD) (i : Nat) : Decidable (Listens b i) := inferInstanceAs (Decidable (_ ∧ _))

/-- How many descriptors listen promiscuously on `i`. -/
def State.listeners (s : State) (i : Nat) : Nat := ((Finset.range s.nbpfilter).filter fun d => Listens (s.dtab d) i).card

/-- `if_pcount` and `IFF_PROMISC` agree with the descriptors. -/
def Accounts (s : State) : Prop :=
  ∀ i, (s.ifs i).ifp.pcount = s.listeners i ∧ ((s.ifs i).ifp.promisc = true ↔ 0 < s.listeners i)

/-- No panic, and the accounts are right. -/
def Good (o : Option State) : Prop := ∃ s, o = some s ∧ Accounts s

/-- A promiscuous listener can leave: the interface is up, and the driver agrees if it is asked. -/
def CanLeave (s : State) (j : Nat) (driver : Option Errno) : Prop :=
  (s.ifs j).ifp.up = true ∧ ((s.ifs j).ifp.pcount ≤ 1 → driver = none)

/-- A step in which the counts, the flags and the listeners stay together. -/
def Fits (s : State) : Op → Prop
  | .open _ | .ifDown _ | .ifUp _ => True
  | .setif d i alloc driver => s.isOpen d → i < s.nif → (s.ifs i).ifp.up = true →
      (s.dtab d).sbuf = true ∨ alloc = true → (s.dtab d).promisc = true →
      ∀ j, (s.dtab d).bdBif = some j → i ≠ j → CanLeave s j driver
  | .promisc d driver => s.isOpen d → (s.dtab d).promisc = false →
      ∀ j, (s.dtab d).bdBif = some j → (s.ifs j).ifp.up = true → (s.ifs j).ifp.pcount = 0 → driver = none
  | .close d driver => s.isOpen d → (s.dtab d).promisc = true → ∀ j, (s.dtab d).bdBif = some j → CanLeave s j driver
  | .ifflags i _ promisc => promisc = (s.ifs i).ifp.promisc

/-! ## One step -/

section Frames
variable (s : State) (i j d e : Nat) (b : BpfIf) (b' : BpfD)

@[simp] theorem setIf_ifs : (s.setIf i b).ifs j = if j = i then b else s.ifs j := by
  simp [State.setIf, Function.update_apply]

@[simp] theorem setD_dtab : (s.setD d b').dtab e = if e = d then b' else s.dtab e := by
  simp [State.setD, Function.update_apply]

@[simp] theorem setIf_dtab : (s.setIf i b).dtab = s.dtab := rfl
@[simp] theorem setD_ifs : (s.setD d b').ifs = s.ifs := rfl
@[simp] theorem setIf_nif : (s.setIf i b).nif = s.nif := rfl
@[simp] theorem setD_nif : (s.setD d b').nif = s.nif := rfl
@[simp] theorem setIf_nbpfilter : (s.setIf i b).nbpfilter = s.nbpfilter := rfl
@[simp] theorem setD_nbpfilter : (s.setD d b').nbpfilter = s.nbpfilter := rfl
@[simp] theorem setIf_listeners : (s.setIf i b).listeners j = s.listeners j := rfl

theorem setD_listeners (hd : d < s.nbpfilter) :
    (s.setD d b').listeners i + (if Listens (s.dtab d) i then 1 else 0) =
      s.listeners i + if Listens b' i then 1 else 0 := by
  have hmem : d ∈ Finset.range s.nbpfilter := Finset.mem_range.2 hd
  have hnew := Finset.add_sum_erase _ (fun e => if Listens ((s.setD d b').dtab e) i then 1 else 0) hmem
  have hold := Finset.add_sum_erase _ (fun e => if Listens (s.dtab e) i then 1 else 0) hmem
  have hrest : ∑ e ∈ (Finset.range s.nbpfilter).erase d, (if Listens ((s.setD d b').dtab e) i then 1 else 0) =
      ∑ e ∈ (Finset.range s.nbpfilter).erase d, if Listens (s.dtab e) i then 1 else 0 := by
    refine Finset.sum_congr rfl fun e he => ?_
    rw [setD_dtab, if_neg (Finset.ne_of_mem_erase he)]
  simp only [State.listeners, Finset.card_filter, setD_nbpfilter]
  simp only [setD_dtab, if_pos] at hnew hrest ⊢
  omega

theorem setD_listeners_same (h : Listens b' i ↔ Listens (s.dtab d) i) :
    (s.setD d b').listeners i = s.listeners i := by
  refine congrArg Finset.card (Finset.filter_congr fun e _ => ?_)
  by_cases he : e = d <;> simp [he, h]

end Frames

/-- What holds between the requests. -/
structure Inv (s : State) : Prop where
  accounts : Accounts s
  linked : ∀ i d, d ∈ (s.ifs i).dlist ↔ s.isOpen d ∧ (s.dtab d).bdBif = some i
  nodup : ∀ i, (s.ifs i).dlist.Nodup
  attached : ∀ d, (s.dtab d).bdBif = none → (s.dtab d).promisc = false
  closed : ∀ d, (s.dtab d).free = true → (s.dtab d).bdBif = none

namespace Inv
variable {s : State}

theorem listeners_pos (hd : s.isOpen d) (hj : (s.dtab d).bdBif = some j) (hp : (s.dtab d).promisc = true) :
    0 < s.listeners j :=
  Finset.card_pos.2 ⟨d, Finset.mem_filter.2 ⟨Finset.mem_range.2 hd.1, hj, hp⟩⟩

/-- A step that changes neither descriptors nor counts, but one interface's `IFF_UP`. -/
theorem setUp (h : Inv s) (i : Nat) (up : Bool) :
    Inv (s.setIf i { s.ifs i with ifp := { (s.ifs i).ifp with up } }) where
  accounts j := by
    obtain ⟨hcount, hflag⟩ := h.accounts j
    by_cases hj : j = i
    · subst hj
      simp [hcount, ← hflag]
    · simp [hj, hcount, ← hflag]
  linked j d := by
    by_cases hj : j = i
    · subst hj
      simpa [State.isOpen] using h.linked j d
    · simpa [hj, State.isOpen] using h.linked j d
  nodup j := by
    by_cases hj : j = i
    · subst hj
      simpa using h.nodup j
    · simpa [hj] using h.nodup j
  attached := h.attached
  closed := h.closed

/-- What `ifpromisc` leaves of an interface with right accounts when the last listener or one of several leaves. -/
theorem ifpromisc_off (h : Inv s) (hpos : 0 < s.listeners j) (hleave : CanLeave s j driver) :
    ∃ ifp, ifpromisc (s.ifs j).ifp false driver = (none, ifp) ∧
      ifp.pcount = (s.listeners j : Int) - 1 ∧ (ifp.promisc = true ↔ 1 < s.listeners j) := by
  obtain ⟨hcount, hflag⟩ := h.accounts j
  obtain ⟨hup, hdriver⟩ := hleave
  by_cases hlast : s.listeners j = 1
  · refine ⟨_, by rw [ifpromisc, if_neg (by simp [hup]), if_neg (by simp), if_neg (by omega), hdriver (by omega)], ?_⟩
    simp only [Bool.false_eq_true, false_iff]
    omega
  · refine ⟨_, by rw [ifpromisc, if_neg (by simp [hup]), if_neg (by simp), if_pos (by omega)], ?_⟩
    simp only [hflag]
    omega

/-- A listener that may leave is detached without a panic. -/
theorem detachd (h : Inv s) (driver : Option Errno) (hd : s.isOpen d) (hj : (s.dtab d).bdBif = some j)
    (hleave : (s.dtab d).promisc = true → CanLeave s j driver) :
    ∃ s', bpfDetachd s d j driver = some s' ∧ Inv s' ∧ s'.isOpen d ∧ (s'.dtab d).bdBif = none := by
  have hmem : d ∈ (s.ifs j).dlist := (h.linked j d).2 ⟨hd, hj⟩
  obtain ⟨ifp, hifp, hcount, hflag⟩ : ∃ ifp,
      (if (s.dtab d).promisc then ifpromisc (s.ifs j).ifp false driver else (none, (s.ifs j).ifp)) = (none, ifp) ∧
      ifp.pcount = (s.listeners j : Int) - (if (s.dtab d).promisc then 1 else 0) ∧
      (ifp.promisc = true ↔ (if (s.dtab d).promisc then 1 else 0) < s.listeners j) := by
    by_cases hp : (s.dtab d).promisc = true
    · simpa [hp] using h.ifpromisc_off (listeners_pos hd hj hp) (hleave hp)
    · exact ⟨_, if_neg hp, by simp [hp, (h.accounts j).1], by simp [hp, (h.accounts j).2]⟩
  refine ⟨_, by simp only [bpfDetachd, hifp]; rw [if_neg (by simp), if_neg (by simpa using hmem)], ?_, ?_, ?_⟩
  · constructor
    · intro i
      have hlist := setD_listeners (s.setIf j ⟨ifp, (s.ifs j).dlist.erase d⟩) i d
        { s.dtab d with bdBif := none, promisc := false } hd.1
      have hold := h.accounts i
      by_cases hi : i = j
      · subst hi
        simp only [Listens, setIf_dtab, hj, setIf_listeners, setD_ifs, setIf_ifs, if_true, true_and] at hlist ⊢
        split at hcount <;> split at hlist <;> simp_all
        omega
      · simp only [Listens, setIf_dtab, hj, setIf_listeners, setD_ifs, setIf_ifs, if_neg hi] at hlist ⊢
        have : ¬(some j = some i ∧ (s.dtab d).promisc = true) := by simp [Ne.symm hi]
        simp only [this, if_false, reduceCtorEq, false_and, Nat.add_zero] at hlist
        rw [hlist]
        exact hold
    · intro i e
      have hold := h.linked i e
      have hnd := h.nodup j
      by_cases hi : i = j <;> by_cases he : e = d <;>
        simp_all [State.isOpen, List.Nodup.mem_erase_iff, Ne.symm]
    · intro i
      by_cases hi : i = j
      · simpa [hi] using (h.nodup j).erase d
      · simpa [hi] using h.nodup i
    · intro e
      have hold := h.attached e
      by_cases he : e = d <;> simp_all
    · intro e
      have hold := h.closed e
      by_cases he : e = d <;> simp_all
  · simpa [State.isOpen] using hd
  · simp

theorem attachd (h : Inv s) {i : Nat} (hd : s.isOpen d) (hj : (s.dtab d).bdBif = none) : Inv (bpfAttachd s d i) where
  accounts k := by
    have hsame : (bpfAttachd s d i).listeners k = s.listeners k :=
      setD_listeners_same s k d _ (by simp [Listens, h.attached d hj])
    rw [hsame]
    by_cases hk : k = i
    · simpa [bpfAttachd, hk] using h.accounts i
    · simpa [bpfAttachd, hk] using h.accounts k
  linked k e := by
    have hold := h.linked k e
    by_cases hk : k = i <;> by_cases he : e = d <;> simp_all [bpfAttachd, State.isOpen, Ne.symm]
  nodup k := by
    have hnot : d ∉ (s.ifs i).dlist := by simp [h.linked, hj]
    by_cases hk : k = i
    · simp [bpfAttachd, hk, hnot, h.nodup i]
    · simpa [bpfAttachd, hk] using h.nodup k
  attached e := by
    have hold := h.attached e
    by_cases he : e = d <;> simp_all [bpfAttachd]
  closed e := by
    have hold := h.closed e
    by_cases he : e = d
    · subst he
      simp [bpfAttachd, hd.2]
    · simpa [bpfAttachd, he] using hold

/-- A change of a descriptor that listens to nothing before and after, or of its buffers only. -/
theorem setD (h : Inv s) {b : BpfD} (hbif : b.bdBif = (s.dtab d).bdBif) (hp : b.promisc = (s.dtab d).promisc)
    (hfree : b.free = (s.dtab d).free ∨ b.bdBif = none) : Inv (s.setD d b) where
  accounts i := by
    rw [setD_listeners_same s i d b (by simp [Listens, hbif, hp])]
    exact h.accounts i
  linked i e := by
    have hold := h.linked i e
    by_cases he : e = d
    · subst he
      rcases hfree with hf | hf
      · simpa [State.isOpen, hf, hbif] using hold
      · rw [hbif] at hf
        simp only [hf, reduceCtorEq, and_false, iff_false] at hold
        simp [hold, hbif, hf]
    · simpa [he, State.isOpen] using hold
  nodup := h.nodup
  attached e := by
    have hold := h.attached e
    by_cases he : e = d <;> simp_all
  closed e := by
    have hold := h.closed e
    by_cases he : e = d
    · subst he
      rcases hfree with hf | hf <;> simp_all
    · simpa [he] using hold

end Inv

/-- `BIOCPROMISC` of a descriptor that does not listen promiscuously yet. -/
theorem Inv.biocpromisc (h : Inv s) (hd : s.isOpen d) (hfits : Fits s (.promisc d driver)) :
    Inv (biocpromisc s d driver).2 := by
  unfold BpfDev.biocpromisc
  split
  · exact h
  rename_i j hj
  by_cases hp : (s.dtab d).promisc = true
  · rwa [if_pos hp]
  rw [if_neg hp]
  obtain ⟨hcount, hflag⟩ := h.accounts j
  by_cases hup : (s.ifs j).ifp.up = true
  · obtain ⟨ifp, hifp, hcount', hflag'⟩ : ∃ ifp, ifpromisc (s.ifs j).ifp true driver = (none, ifp) ∧
        ifp.pcount = s.listeners j + 1 ∧ ifp.promisc = true := by
      unfold ifpromisc
      rw [if_neg (by simp [hup]), if_pos rfl]
      split
      · exact ⟨_, rfl, by simp [hcount], by simp only [hflag]; omega⟩
      · rw [hfits hd (by simpa using hp) j hj hup (by omega)]
        exact ⟨_, rfl, by simp [hcount], rfl⟩
    simp only [hifp, if_true]
    constructor
    · intro i
      have hlist := setD_listeners (s.setIf j { s.ifs j with ifp }) i d { s.dtab d with promisc := true } hd.1
      have hold := h.accounts i
      rw [if_neg (by simp [Listens, hp]), setIf_listeners, Nat.add_zero] at hlist
      by_cases hi : i = j
      · subst hi
        rw [if_pos ⟨hj, rfl⟩] at hlist
        dsimp only [setIf_dtab] at hlist ⊢
        rw [hlist]
        simp [hcount', hflag']
      · rw [if_neg (by simp [Listens, hj, Ne.symm hi]), Nat.add_zero] at hlist
        dsimp only [setIf_dtab] at hlist ⊢
        rw [hlist]
        simpa [hi] using hold
    · intro i e
      have hold := h.linked i e
      by_cases hi : i = j <;> by_cases he : e = d <;> simp_all [State.isOpen]
    · intro i
      by_cases hi : i = j
      · simpa [hi] using h.nodup j
      · simpa [hi] using h.nodup i
    · intro e
      have hold := h.attached e
      by_cases he : e = d <;> simp_all
    · intro e
      have hold := h.closed e
      by_cases he : e = d <;> simp_all
  · have hdown : ifpromisc (s.ifs j).ifp true driver = (some .enetdown, (s.ifs j).ifp) := by simp [ifpromisc, hup]
    simp only [hdown, reduceCtorEq, if_false]
    exact h.setUp j (s.ifs j).ifp.up

theorem biocpromisc_refused (h : Inv s) (hj : (s.dtab d).bdBif = some j) (hp : (s.dtab d).promisc = false)
    (hup : (s.ifs j).ifp.up = true) (hzero : (s.ifs j).ifp.pcount = 0) (hdriver : driver ≠ none) :
    ¬Accounts (biocpromisc s d driver).2 := by
  intro hgood
  have hcount := (hgood j).1
  have hold := (h.accounts j).1
  simp [biocpromisc, hj, hp, ifpromisc, hup, hzero, hdriver] at hcount
  omega

theorem detachd_panic (hp : (s.dtab d).promisc = true) (hleave : ¬CanLeave s j driver) :
    bpfDetachd s d j driver = none := by
  simp only [bpfDetachd, hp, if_true]
  have : (ifpromisc (s.ifs j).ifp false driver).1 ≠ none := by
    simp only [CanLeave, not_and] at hleave
    unfold ifpromisc
    split
    · simp
    · rw [if_neg (by simp), if_neg (by grind)]
      grind
  rw [if_pos this]

theorem Inv.bpfopen (h : Inv s) (d : Nat) : Inv (bpfopen s d).2 := by
  unfold BpfDev.bpfopen
  split
  · exact h
  split
  · exact h
  rename_i hfree
  have hnone := h.closed d (by simpa using hfree)
  exact h.setD hnone.symm (h.attached d hnone).symm (.inr rfl)

theorem Inv.bpfclose (h : Inv s) (hd : s.isOpen d) (hfits : Fits s (.close d driver)) :
    ∃ s', bpfclose s d driver = some s' ∧ Inv s' := by
  unfold BpfDev.bpfclose
  rcases hj : (s.dtab d).bdBif with _ | j
  · exact ⟨_, rfl, h.setD rfl rfl (.inr hj)⟩
  · obtain ⟨s', hs', hinv, -, hnone⟩ := h.detachd driver hd hj fun hp => hfits hd hp j hj
    exact ⟨s'.setD d { s'.dtab d with free := true }, by simp only [hs', Option.map_some],
      hinv.setD rfl rfl (.inr hnone)⟩

theorem Inv.bpfSetif (h : Inv s) {i : Nat} {alloc : Bool} (hd : s.isOpen d) (hfits : Fits s (.setif d i alloc driver)) :
    ∃ r, bpfSetif s d i alloc driver = some r ∧ Inv r.2 := by
  unfold BpfDev.bpfSetif
  split
  · exact ⟨_, rfl, h⟩
  split
  · exact ⟨_, rfl, h⟩
  split
  · exact ⟨_, rfl, h⟩
  rename_i hi hup halloc
  set t := s.setD d { s.dtab d with sbuf := true } with ht
  have hinv : Inv t := h.setD rfl rfl (.inl rfl)
  have hopen : t.isOpen d := by simpa [ht, State.isOpen] using hd
  have hfits' := hfits hd (by omega) (by simpa using hup) (by grind)
  rcases hj : (t.dtab d).bdBif with _ | j
  · exact ⟨(none, bpfAttachd t d i), by simp only [hj], hinv.attachd hopen hj⟩
  by_cases hij : i = j
  · exact ⟨(none, t), by simp only [hj, if_pos hij], hinv⟩
  · have hj' : (s.dtab d).bdBif = some j := by simpa [ht] using hj
    obtain ⟨s', hs', hinv', hopen', hnone⟩ := hinv.detachd driver hopen hj
      fun hp => hfits' (by simpa [ht] using hp) j hj' hij
    exact ⟨(none, bpfAttachd s' d i), by simp only [hj, if_neg hij, hs', Option.map_some], hinv'.attachd hopen' hnone⟩

/-- A fitting step does not panic and keeps the invariant. -/
theorem Inv.run (h : Inv s) (op : Op) (hfits : Fits s op) : ∃ s', run s op = some s' ∧ Inv s' := by
  cases op with
  | «open» d => exact ⟨_, rfl, h.bpfopen d⟩
  | setif d i alloc driver =>
    by_cases hd : s.isOpen d
    · obtain ⟨r, hr, hinv⟩ := h.bpfSetif hd hfits
      exact ⟨r.2, by rw [BpfDev.run, if_pos hd, hr, Option.map_some], hinv⟩
    · exact ⟨s, if_neg hd, h⟩
  | promisc d driver =>
    by_cases hd : s.isOpen d
    · exact ⟨_, if_pos hd, h.biocpromisc hd hfits⟩
    · exact ⟨s, if_neg hd, h⟩
  | close d driver =>
    by_cases hd : s.isOpen d
    · obtain ⟨s', hs', hinv⟩ := h.bpfclose hd hfits
      exact ⟨s', by rw [BpfDev.run, if_pos hd, hs'], hinv⟩
    · exact ⟨s, if_neg hd, h⟩
  | ifDown i => exact ⟨_, rfl, h.setUp i false⟩
  | ifUp i => exact ⟨_, rfl, h.setUp i true⟩
  | ifflags i up promisc =>
    obtain rfl : promisc = (s.ifs i).ifp.promisc := hfits
    exact ⟨_, rfl, h.setUp i up⟩

/-- Any other step panics or leaves wrong accounts. -/
theorem Inv.run_bad (h : Inv s) (op : Op) (hfits : ¬Fits s op) : ¬Good (BpfDev.run s op) := by
  rintro ⟨s', hs', hgood⟩
  cases op with
  | «open» | ifDown | ifUp => exact hfits trivial
  | setif d i alloc driver =>
    simp only [Fits, Classical.not_imp, not_forall] at hfits
    obtain ⟨hd, hi, hup, halloc, hp, j, hj, hij, hleave⟩ := hfits
    have hnone : BpfDev.bpfSetif s d i alloc driver = none := by
      unfold BpfDev.bpfSetif
      rw [if_neg (by omega), if_neg (by simp [hup]), if_neg (by grind)]
      set t := s.setD d { s.dtab d with sbuf := true } with ht
      have hj' : (t.dtab d).bdBif = some j := by simpa [ht] using hj
      have hpanic : bpfDetachd t d j driver = none := detachd_panic (by simpa [ht] using hp) hleave
      simp only [hj', if_neg hij, hpanic, Option.map_none]
    rw [BpfDev.run, if_pos hd, hnone] at hs'
    cases hs'
  | promisc d driver =>
    simp only [Fits, Classical.not_imp, not_forall] at hfits
    obtain ⟨hd, hp, j, hj, hup, hzero, hdriver⟩ := hfits
    rw [BpfDev.run, if_pos hd] at hs'
    cases hs'
    exact biocpromisc_refused h hj hp hup hzero hdriver hgood
  | close d driver =>
    simp only [Fits, Classical.not_imp, not_forall] at hfits
    obtain ⟨hd, hp, j, hj, hleave⟩ := hfits
    have hnone : BpfDev.bpfclose s d driver = none := by
      unfold BpfDev.bpfclose
      simp [hj, detachd_panic hp hleave]
    rw [BpfDev.run, if_pos hd, hnone] at hs'
    cases hs'
  | ifflags i up promisc =>
    cases hs'
    have hnew := (hgood i).2
    have hold := (h.accounts i).2
    simp only [setIf_ifs, if_true, setIf_listeners, ← hold] at hnew
    exact hfits (Bool.eq_iff_iff.2 hnew)

theorem inv_start (nif nbpfilter : Nat) (up : Nat → Bool) : Inv (start nif nbpfilter up) where
  accounts i := by simp [start, State.listeners, Listens]
  linked i d := by simp [start, State.isOpen]
  nodup i := List.nodup_nil
  attached d _ := rfl
  closed d _ := rfl

/-- The steps of a system that has not panicked fit. -/
def StepFits (o : Option State) (op : Op) : Prop := ∀ s, o = some s → Fits s op

/-- The accounts are right and no descriptor panics throughout a run if and only if each of its steps fits. -/
theorem promisc_runs (nif nbpfilter : Nat) (up : Nat → Bool) (ops : List Op) :
    (∀ o ∈ states step (some (start nif nbpfilter up)) ops, Good o) ↔
      Along step StepFits (some (start nif nbpfilter up)) ops := by
  refine states_iff_ok (I := fun o => ∃ s, o = some s ∧ Inv s) ?_ ?_ ?_ ops ⟨_, rfl, inv_start nif nbpfilter up⟩
  · rintro o op ⟨s, rfl, h⟩ hfits
    exact h.run op (hfits s rfl)
  · rintro o ⟨s, rfl, h⟩
    exact ⟨s, rfl, h.accounts⟩
  · rintro o op ⟨s, rfl, h⟩ hfits
    refine h.run_bad op fun hf => hfits ?_
    rintro s' hs'
    cases hs'
    exact hf

/-- One listener is promiscuous when its interface goes down, and is closed. -/
def closedDown : List Op := [.open 0, .setif 0 0 true none, .promisc 0 none, .ifDown 0, .close 0 none]

/-- The close panics. -/
theorem promisc_closed_down : final step (some (start 1 1 fun _ => true)) closedDown = none ∧
    ¬∀ o ∈ states step (some (start 1 1 fun _ => true)) closedDown, Good o := by
  have hend : final step (some (start 1 1 fun _ => true)) closedDown = none := by decide
  refine ⟨hend, fun hall => ?_⟩
  obtain ⟨s, hs, -⟩ := hall _ (final_mem_states step _ closedDown)
  rw [hend] at hs
  cases hs

end BsdKernel.BpfDev
