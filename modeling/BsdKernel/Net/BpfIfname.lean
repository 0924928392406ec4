import Mathlib.Data.List.TakeWhile
import Mathlib.Data.BitVec
import Mathlib.Logic.Function.Basic
import Mathlib.Tactic
/-!
# Names of interfaces

`bpf_ifname` and `bpf_setif` of `net/bpf.c`: the name of an interface with its unit as a digit
behind it, and the way back. The parser keeps to `ifr_name` and finds the name and the unit of
any string (`bpfParse_spec`). But `bpf_ifname` puts the digit behind the NUL of the name, where nobody
finds it, so the name it writes is that of unit 0 (`bpf_setif_iff`).
-/

namespace BsdKernel.BpfName

def IFNAMSIZ : Nat := 16

/-- `struct ifreq` from `ifr_name` on. -/
abbrev Ifreq := Nat → UInt8

/-- What is read of `struct ifnet`; `name` is the string at `if_name`. -/
structure Ifnet where
  name : List UInt8
  unit : BitVec 16
  up : Bool
  deriving DecidableEq, Repr

/-- `struct bpf_if`; its `bif_ifp` may be null. -/
structure BpfIf where
  ifp : Option Ifnet
  deriving DecidableEq, Repr

/-- What is used of `struct bpf_d`: `bd_bif`, and whether there are buffers. -/
structure BpfD where
  bdBif : Option BpfIf
  sbuf : Bool
  deriving DecidableEq, Repr

inductive Errno where
  | enxio | enetdown | enobufs
  deriving DecidableEq, Repr

/-! ## The code -/

section Code
variable (ifr : Ifreq)

/-- `while (*d++ = *s++)`: the memory, and `d`. -/
def copyName (ifr : Ifreq) (d : Nat) : List UInt8 → Ifreq × Nat
  | [] => (Function.update ifr d 0, d + 1)
  | c :: s => copyName (Function.update ifr d c) (d + 1) s

/-- `bpf_ifname` -/
def bpfIfname (ifp : Ifnet) : Ifreq :=
  let (ifr, d) := copyName ifr 0 ifp.name
  let ifr := Function.update ifr d (UInt8.ofBitVec ((ifp.unit + 48).setWidth 8))
  Function.update ifr (d + 1) 0

/-- A read of `ifr_name`; there is no result outside. -/
def load (i : Nat) : Option UInt8 := if i < IFNAMSIZ then some (ifr i) else none

def store (i : Nat) (v : UInt8) : Option Ifreq := if i < IFNAMSIZ then some (Function.update ifr i v) else none

def isDigit (c : UInt8) : Bool := 48 ≤ c && c ≤ 57

/-- The value of a `char`, which is signed, less that of `'0'`. -/
def digit (c : UInt8) : BitVec 32 := c.toBitVec.signExtend 32 - 48

/-- `while (*cp) unit = 10 * unit + *cp++ - '0'` -/
def number : Nat → Nat → BitVec 32 → Option (BitVec 32)
  | 0, _, _ => none
  | turns + 1, cp, unit => do
    let c ← load ifr cp
    if c = 0 then some unit else number turns (cp + 1) (10 * unit + digit c)

/-- The loop of `bpf_setif` that separates the unit from the name. -/
def scan : Nat → Nat → Option (Ifreq × BitVec 32)
  | 0, _ => none
  | turns + 1, cp => do
    let c ← load ifr cp
    if c = 0 then some (ifr, 0)
    else
      let d ← load ifr (cp + 1)
      if isDigit d then
        let ifr ← store ifr (cp + 1) 0
        let unit ← number ifr IFNAMSIZ (cp + 2) (digit d)
        some (ifr, unit)
      else scan turns (cp + 1)

/-- `bpf_setif` up to the search. -/
def bpfParse : Option (Ifreq × BitVec 32) := do
  let ifr ← store ifr (IFNAMSIZ - 1) 0
  scan ifr IFNAMSIZ 0

/-- `strcmp(name, ifr->ifr_name) == 0` -/
def strcmp : List UInt8 → Nat → Option Bool
  | [], i => (load ifr i).map (· == 0)
  | c :: s, i => do
    let d ← load ifr i
    if d = c then strcmp s (i + 1) else some false

/-- The search for the interface. -/
def findIf (unit : BitVec 32) : List BpfIf → Option (Option BpfIf)
  | [] => some none
  | bp :: l =>
    match bp.ifp with
    | none => findIf unit l
    | some ifp =>
      if unit.toInt ≠ ifp.unit.toInt then findIf unit l
      else do
        let same ← strcmp ifr ifp.name 0
        if same then some (some bp) else findIf unit l

/-- The interface that `bpf_setif` selects. -/
def selected (l : List BpfIf) : Option (Option BpfIf) := do
  let (ifr, unit) ← bpfParse ifr
  findIf ifr unit l

/-- `bpf_setif` with the list of interfaces and what `bpf_allocbufs` returns: the errno and the descriptor. -/
def bpfSetif (l : List BpfIf) (d : BpfD) (alloc : Option Errno) : Option (Option Errno × BpfD) := do
  match ← selected ifr l with
  | none => some (some .enxio, d)
  | some bp =>
    if bp.ifp.all (·.up) = false then some (some .enetdown, d)
    else
      match (if d.sbuf then none else alloc) with
      | some errno => some (some errno, d)
      | none => some (none, ⟨some bp, true⟩)

end Code

/-! ## Strings -/

/-- The string at `a`. -/
def Str (ifr : Ifreq) : Nat → List UInt8 → Prop
  | a, [] => ifr a = 0
  | a, c :: s => c ≠ 0 ∧ ifr a = c ∧ Str ifr (a + 1) s

/-- The name in a string: all but the digits behind its first character. -/
def nameOf : List UInt8 → List UInt8
  | [] => []
  | c :: s => c :: s.takeWhile fun d => !isDigit d

/-- The unit in a string. -/
def unitOf : List UInt8 → BitVec 32
  | [] => 0
  | _ :: s =>
    match s.dropWhile fun d => !isDigit d with
    | [] => 0
    | d :: ds => ds.foldl (fun unit c => 10 * unit + digit c) (digit d)

section Strings
variable {ifr ifr' : Ifreq} {a : Nat} {s t : List UInt8}

theorem Str.congr (h : Str ifr a s) (he : ∀ i, a ≤ i → i ≤ a + s.length → ifr' i = ifr i) : Str ifr' a s := by
  induction s generalizing a with
  | nil => exact (he a (Nat.le_refl a) (Nat.le_refl a)).trans h
  | cons c s ih =>
    refine ⟨h.1, (he a (Nat.le_refl a) (by simp)).trans h.2.1, ih h.2.2 fun i hi hl => he i (by omega) ?_⟩
    rw [List.length_cons]
    omega

theorem Str.end (h : Str ifr a s) : ifr (a + s.length) = 0 := by
  induction s generalizing a with
  | nil => exact h
  | cons c s ih =>
    rw [List.length_cons, show a + (s.length + 1) = a + 1 + s.length by omega]
    exact ih h.2.2

/-- Memory with a NUL from `a` on has a string there. -/
theorem exists_str (n : Nat) (h : ifr (a + n) = 0) : ∃ s, Str ifr a s ∧ s.length ≤ n := by
  induction n generalizing a with
  | zero => exact ⟨[], h, Nat.le_refl 0⟩
  | succ n ih =>
    by_cases hc : ifr a = 0
    · exact ⟨[], hc, Nat.zero_le _⟩
    · obtain ⟨s, hs, hlen⟩ := ih (a := a + 1) (by rw [show a + 1 + n = a + (n + 1) by omega]; exact h)
      exact ⟨ifr a :: s, ⟨hc, rfl, hs⟩, Nat.succ_le_succ hlen⟩

theorem load_eq (ifr : Ifreq) {i : Nat} (h : i < IFNAMSIZ) : load ifr i = some (ifr i) := if_pos h

theorem number_spec (turns : Nat) (h : Str ifr a s) (hlen : a + s.length < IFNAMSIZ) (hturns : s.length < turns)
    (unit : BitVec 32) : number ifr turns a unit = some (s.foldl (fun unit c => 10 * unit + digit c) unit) := by
  induction s generalizing a turns unit with
  | nil =>
    obtain ⟨turns, rfl⟩ := Nat.exists_eq_succ_of_ne_zero (Nat.ne_of_gt hturns)
    have h0 : ifr a = 0 := h
    simp [number, load_eq ifr (i := a) (by simpa using hlen), h0]
  | cons c s ih =>
    rw [List.length_cons] at hlen hturns
    obtain ⟨turns, rfl⟩ := Nat.exists_eq_succ_of_ne_zero (show turns ≠ 0 by omega)
    have hrest := ih turns h.2.2 (by omega) (by omega) (10 * unit + digit c)
    simpa [number, load_eq ifr (i := a) (by omega), h.2.1, h.1] using hrest

theorem strcmp_spec (h : Str ifr a t) (hlen : a + t.length < IFNAMSIZ) (hs : 0 ∉ s) : strcmp ifr s a = some (decide (s = t)) := by
  induction s generalizing a t with
  | nil =>
    cases t with
    | nil => simp [strcmp, load_eq ifr (i := a) (by simpa using hlen), show ifr a = 0 from h]
    | cons d t => simp [strcmp, load_eq ifr (i := a) (by omega), h.2.1, h.1]
  | cons c s ih =>
    have hc : c ≠ 0 := fun he => hs (by simp [he])
    cases t with
    | nil =>
      have h0 : ifr a = 0 := h
      simp [strcmp, load_eq ifr (i := a) (by simpa using hlen), h0, hc.symm]
    | cons d t =>
      rw [List.length_cons] at hlen
      have hrest := ih h.2.2 (by omega) fun hm => hs (List.mem_cons_of_mem _ hm)
      by_cases hd : d = c
      · simp [strcmp, load_eq ifr (i := a) (by omega), h.2.1, hd, hrest]
      · simp [strcmp, load_eq ifr (i := a) (by omega), h.2.1, hd, Ne.symm hd]

/-- The loop reads and writes inside `ifr_name`, and leaves the name and the unit. -/
theorem scan_spec (turns : Nat) (h : Str ifr a s) (hlen : a + s.length < IFNAMSIZ) (hturns : s.length < turns) :
    ∃ ifr', scan ifr turns a = some (ifr', unitOf s) ∧ Str ifr' a (nameOf s) ∧
      ∀ i, i < a ∨ IFNAMSIZ ≤ i → ifr' i = ifr i := by
  induction s generalizing a turns with
  | nil =>
    obtain ⟨turns, rfl⟩ := Nat.exists_eq_succ_of_ne_zero (Nat.ne_of_gt hturns)
    have h0 : ifr a = 0 := h
    refine ⟨ifr, ?_, h0, fun _ _ => rfl⟩
    simp [scan, load_eq ifr (i := a) (by simpa using hlen), h0, unitOf]
  | cons c s ih =>
    rw [List.length_cons] at hlen hturns
    obtain ⟨turns, rfl⟩ := Nat.exists_eq_succ_of_ne_zero (show turns ≠ 0 by omega)
    have hc : load ifr a = some c := by rw [load_eq ifr (by omega), h.2.1]
    cases s with
    | nil =>
      -- the character behind the first one is the NUL
      have h0 : ifr (a + 1) = 0 := h.2.2
      obtain ⟨ifr', hrun, hname, hout⟩ := ih turns h.2.2 (by omega) (by omega)
      refine ⟨ifr', ?_, ?_, fun i hi => hout i (by omega)⟩
      · have hd : load ifr (a + 1) = some 0 := by rw [load_eq ifr (by omega), h0]
        have hdigit : isDigit 0 = false := rfl
        simpa [scan, hc, hd, h.1, hdigit, unitOf] using hrun
      · exact ⟨h.1, (hout a (by omega)).trans h.2.1, hname⟩
    | cons d s =>
      rw [List.length_cons] at hlen hturns
      have hd : load ifr (a + 1) = some d := by rw [load_eq ifr (by omega), h.2.2.2.1]
      cases hdigit : isDigit d with
      | true =>
        have hstore : store ifr (a + 1) 0 = some (Function.update ifr (a + 1) 0) := if_pos (by omega)
        have hrest : Str (Function.update ifr (a + 1) 0) (a + 2) s :=
          h.2.2.2.2.congr fun i hi _ => Function.update_of_ne (by omega) _ _
        have hnum := number_spec IFNAMSIZ hrest (by omega) (by omega) (digit d)
        refine ⟨Function.update ifr (a + 1) 0, ?_, ?_, fun i hi => Function.update_of_ne (by omega) _ _⟩
        · simp only [scan, hc, Option.bind_eq_bind, Option.bind_some, if_neg h.1, hd, hdigit, if_true, hstore, hnum]
          simp [unitOf, hdigit]
        · simp only [nameOf, List.takeWhile_cons, hdigit, Bool.not_true, Bool.false_eq_true, if_false]
          exact ⟨h.1, (Function.update_of_ne (by omega) _ _).trans h.2.1, Function.update_self ..⟩
      | false =>
        obtain ⟨ifr', hrun, hname, hout⟩ := ih turns h.2.2 (by rw [List.length_cons]; omega) (by rw [List.length_cons]; omega)
        refine ⟨ifr', ?_, ?_, fun i hi => hout i (by omega)⟩
        · have hunit : unitOf (c :: d :: s) = unitOf (d :: s) := by simp [unitOf, hdigit]
          simpa [scan, hc, hd, h.1, hdigit, hunit] using hrun
        · have hsplit : nameOf (c :: d :: s) = c :: nameOf (d :: s) := by simp [nameOf, hdigit]
          rw [hsplit]
          exact ⟨h.1, (hout a (by omega)).trans h.2.1, hname⟩

theorem bpfParse_spec (h : Str ifr 0 s) (hlen : s.length < IFNAMSIZ) :
    ∃ ifr', bpfParse ifr = some (ifr', unitOf s) ∧ Str ifr' 0 (nameOf s) ∧ ∀ i, IFNAMSIZ ≤ i → ifr' i = ifr i := by
  have hstore : store ifr (IFNAMSIZ - 1) 0 = some (Function.update ifr (IFNAMSIZ - 1) 0) := if_pos (by decide)
  have hstr : Str (Function.update ifr (IFNAMSIZ - 1) 0) 0 s := by
    refine h.congr fun i _ hi => ?_
    by_cases he : i = IFNAMSIZ - 1
    · -- the NUL that is stored is the one of the string
      have hend := h.end
      rw [show 0 + s.length = i by omega] at hend
      rw [he, Function.update_self, ← he, hend]
    · exact Function.update_of_ne he _ _
  obtain ⟨ifr', hrun, hname, hout⟩ := scan_spec IFNAMSIZ hstr (by omega) hlen
  refine ⟨ifr', ?_, hname, fun i hi => ?_⟩
  · simp only [bpfParse, hstore, Option.bind_eq_bind, Option.bind_some]
    exact hrun
  · rw [hout i (.inr hi), Function.update_of_ne]
    unfold IFNAMSIZ at hi ⊢
    omega

theorem bpfParse_some (ifr : Ifreq) : (bpfParse ifr).isSome = true := by
  have hstore : store ifr (IFNAMSIZ - 1) 0 = some (Function.update ifr (IFNAMSIZ - 1) 0) := if_pos (by decide)
  obtain ⟨s, hs, hlen⟩ := exists_str (n := IFNAMSIZ - 1) (a := 0)
    (show Function.update ifr (IFNAMSIZ - 1) 0 (0 + (IFNAMSIZ - 1)) = 0 by rw [Nat.zero_add, Function.update_self])
  have hlt : s.length < IFNAMSIZ := Nat.lt_of_le_of_lt hlen (by decide)
  obtain ⟨ifr', hrun, -, -⟩ := scan_spec IFNAMSIZ hs (by omega) hlt
  simp only [bpfParse, hstore, Option.bind_eq_bind, Option.bind_some, hrun, Option.isSome_some]

theorem copyName_spec (ifr : Ifreq) (d : Nat) (hs : 0 ∉ s) :
    ∃ ifr', copyName ifr d s = (ifr', d + s.length + 1) ∧ Str ifr' d s ∧ ∀ i < d, ifr' i = ifr i := by
  induction s generalizing ifr d with
  | nil => exact ⟨_, rfl, Function.update_self .., fun i hi => Function.update_of_ne (by omega) _ _⟩
  | cons c s ih =>
    obtain ⟨ifr', hrun, hstr, hout⟩ := ih (Function.update ifr d c) (d + 1) fun hm => hs (List.mem_cons_of_mem _ hm)
    refine ⟨ifr', ?_, ⟨fun he => hs (by simp [he]), ?_, hstr⟩, fun i hi => ?_⟩
    · rw [copyName, hrun, List.length_cons, show d + 1 + s.length + 1 = d + (s.length + 1) + 1 by omega]
    · rw [hout d (by omega), Function.update_self]
    · rw [hout i (by omega), Function.update_of_ne (by omega)]

/-- The digit goes behind the NUL, so the string is the name alone. -/
theorem bpfIfname_str (ifr : Ifreq) {ifp : Ifnet} (hs : 0 ∉ ifp.name) : Str (bpfIfname ifr ifp) 0 ifp.name := by
  obtain ⟨ifr', hrun, hstr, -⟩ := copyName_spec ifr 0 hs
  rw [bpfIfname, hrun]
  simp only
  refine hstr.congr fun i _ hi => ?_
  rw [Function.update_of_ne (by omega), Function.update_of_ne (by omega)]

end Strings

/-! ## The round trip -/

/-- The interface has this name and this unit. -/
def Has (unit : BitVec 32) (name : List UInt8) (bp : BpfIf) : Bool :=
  bp.ifp.any fun ifp => decide (unit.toInt = ifp.unit.toInt) && decide (ifp.name = name)

/-- The attached interfaces: their names are strings that fit `ifr_name`, without a digit behind the first
character, and no two have one name and unit. -/
structure Attached where
  list : List BpfIf
  string : ∀ bp ∈ list, ∀ ifp, bp.ifp = some ifp → 0 ∉ ifp.name ∧ ifp.name.length < IFNAMSIZ
  plain : ∀ bp ∈ list, ∀ ifp, bp.ifp = some ifp → ∀ c ∈ ifp.name.tail, isDigit c = false
  distinct : list.Pairwise fun b c => ∀ i j, b.ifp = some i → c.ifp = some j → (i.name, i.unit) ≠ (j.name, j.unit)

section RoundTrip
variable {ifr : Ifreq} {t : List UInt8}

theorem findIf_spec (h : Str ifr 0 t) (hlen : t.length < IFNAMSIZ) (unit : BitVec 32) (l : List BpfIf)
    (hl : ∀ bp ∈ l, ∀ ifp, bp.ifp = some ifp → 0 ∉ ifp.name) : findIf ifr unit l = some (l.find? (Has unit t)) := by
  induction l with
  | nil => rfl
  | cons bp l ih =>
    have hrest := ih fun b hb => hl b (List.mem_cons_of_mem _ hb)
    cases hifp : bp.ifp with
    | none =>
      have hno : Has unit t bp = false := by simp [Has, hifp]
      rw [List.find?_cons_of_neg (by simp [hno]), ← hrest, findIf, hifp]
    | some ifp =>
      have hcmp := strcmp_spec h (by omega) (hl bp List.mem_cons_self ifp hifp)
      by_cases hunit : unit.toInt = ifp.unit.toInt
      · by_cases hname : ifp.name = t
        · have hyes : Has unit t bp = true := by simp [Has, hifp, hunit, hname]
          rw [List.find?_cons_of_pos hyes]
          rw [hname] at hcmp
          simp [findIf, hifp, hunit, hcmp, hname]
        · have hno : Has unit t bp = false := by simp [Has, hifp, hname]
          rw [List.find?_cons_of_neg (by simp [hno]), ← hrest]
          simp [findIf, hifp, hunit, hcmp, hname]
      · have hno : Has unit t bp = false := by simp [Has, hifp, hunit]
        rw [List.find?_cons_of_neg (by simp [hno]), ← hrest]
        simp [findIf, hifp, hunit]

/-- A name without digits behind its first character is its own name, of unit 0. -/
theorem plain_name {s : List UInt8} (h : ∀ c ∈ s.tail, isDigit c = false) : nameOf s = s ∧ unitOf s = 0 := by
  cases s with
  | nil => exact ⟨rfl, rfl⟩
  | cons c s =>
    have hplain : ∀ d ∈ s, (!isDigit d) = true := fun d hd => by rw [h d hd]; rfl
    have hdrop : s.dropWhile (fun d => !isDigit d) = [] := List.dropWhile_eq_nil_iff.2 hplain
    refine ⟨congrArg (c :: ·) (List.takeWhile_eq_self_iff.2 hplain), ?_⟩
    rw [unitOf, hdrop]

theorem selected_ifname (a : Attached) {bp : BpfIf} (hbp : bp ∈ a.list) {ifp : Ifnet} (hifp : bp.ifp = some ifp) (ifr : Ifreq) :
    selected (bpfIfname ifr ifp) a.list = some (a.list.find? (Has 0 ifp.name)) := by
  obtain ⟨hnul, hlen⟩ := a.string bp hbp ifp hifp
  obtain ⟨hname, hunit⟩ := plain_name (a.plain bp hbp ifp hifp)
  obtain ⟨ifr', hrun, hstr, -⟩ := bpfParse_spec (bpfIfname_str ifr hnul) hlen
  rw [hname] at hstr
  rw [hunit] at hrun
  simp only [selected, hrun, Option.bind_eq_bind, Option.bind_some]
  exact findIf_spec hstr hlen 0 a.list fun b hb i hi => (a.string b hb i hi).1

/-- The interface whose name and unit are looked for is the only one with them. -/
theorem find_has (a : Attached) {bp : BpfIf} (hbp : bp ∈ a.list) {ifp : Ifnet} (hifp : bp.ifp = some ifp) :
    a.list.find? (Has 0 ifp.name) = some bp ↔ ifp.unit = 0 := by
  constructor
  · intro hfind
    have hhas := List.find?_some hfind
    simp only [Has, hifp, Option.any_some, Bool.and_eq_true, decide_eq_true_eq] at hhas
    exact (BitVec.toInt_inj.1 (hhas.1.symm.trans rfl))
  · intro hunit
    have hhas : Has 0 ifp.name bp = true := by simp [Has, hifp, hunit]
    obtain ⟨c, hc⟩ : ∃ c, a.list.find? (Has 0 ifp.name) = some c :=
      Option.isSome_iff_exists.1 (List.find?_isSome.2 ⟨bp, hbp, hhas⟩)
    have hmem := List.mem_of_find?_eq_some hc
    have hhas' := List.find?_some hc
    rw [hc]
    by_contra hne
    have hne : c ≠ bp := fun he => hne (congrArg some he)
    cases hj : c.ifp with
    | none => simp [Has, hj] at hhas'
    | some j =>
      have hsymm : Std.Symm fun b c : BpfIf => ∀ i j, b.ifp = some i → c.ifp = some j → (i.name, i.unit) ≠ (j.name, j.unit) :=
        ⟨fun b c hbc i j hi hj he => hbc j i hj hi he.symm⟩
      have hpair := a.distinct.forall hmem hbp hne j ifp hj hifp
      simp only [Has, hj, Option.any_some, Bool.and_eq_true, decide_eq_true_eq] at hhas'
      have hj0 : j.unit = 0 := BitVec.toInt_inj.1 (hhas'.1.symm.trans rfl)
      exact hpair (by rw [hhas'.2, hj0, hunit])

/-- Every string in `ifr_name` is parsed into its name and its unit. -/
def Parses (ifr : Ifreq) : Prop :=
  (bpfParse ifr).isSome = true ∧ ∀ s, Str ifr 0 s → s.length < IFNAMSIZ →
    ∃ ifr', bpfParse ifr = some (ifr', unitOf s) ∧ Str ifr' 0 (nameOf s) ∧ ∀ i, IFNAMSIZ ≤ i → ifr' i = ifr i

/-- The name that `bpf_ifname` writes selects its interface exactly if the unit is 0; and the parser
keeps to `ifr_name`. -/
theorem bpf_setif_iff (a : Attached) {bp : BpfIf} (hbp : bp ∈ a.list) {ifp : Ifnet} (hifp : bp.ifp = some ifp) :
    ((∀ ifr, selected (bpfIfname ifr ifp) a.list = some (some bp)) ∧ ∀ ifr, Parses ifr) ↔ ifp.unit = 0 := by
  have hparses : ∀ ifr, Parses ifr := fun ifr => ⟨bpfParse_some ifr, fun s hs hlen => bpfParse_spec hs hlen⟩
  rw [and_iff_left hparses, ← find_has a hbp hifp]
  constructor
  · intro hall
    have := hall fun _ => 0
    rw [selected_ifname a hbp hifp] at this
    exact Option.some.inj this
  · intro hfind ifr
    rw [selected_ifname a hbp hifp, hfind]

end RoundTrip

/-- Two interfaces of one driver, `le0` and `le1`. -/
def le (unit : BitVec 16) : Ifnet := ⟨[108, 101], unit, true⟩

def twoLe : Attached where
  list := [⟨some (le 0)⟩, ⟨some (le 1)⟩]
  string := by
    intro bp hbp ifp hifp
    rcases List.mem_pair.1 hbp with rfl | rfl <;> obtain rfl := Option.some.inj hifp <;> decide
  plain := by
    intro bp hbp ifp hifp
    rcases List.mem_pair.1 hbp with rfl | rfl <;> obtain rfl := Option.some.inj hifp <;>
      exact List.forall_mem_singleton.2 rfl
  distinct := by
    refine List.pairwise_pair.2 fun i j hi hj => ?_
    obtain rfl := Option.some.inj hi
    obtain rfl := Option.some.inj hj
    decide

theorem bpf_setif_le0 : ⟨some (le 0)⟩ ∈ twoLe.list ∧
    (∀ ifr, selected (bpfIfname ifr (le 0)) twoLe.list = some (some ⟨some (le 0)⟩)) ∧ ∀ ifr, Parses ifr :=
  ⟨List.mem_cons_self, (bpf_setif_iff twoLe List.mem_cons_self rfl).2 rfl⟩

/-- The name of `le1` selects `le0`. -/
theorem bpf_setif_le1 : ⟨some (le 1)⟩ ∈ twoLe.list ∧
    selected (bpfIfname (fun _ => 0) (le 1)) twoLe.list = some (some ⟨some (le 0)⟩) ∧
      ¬∀ ifr, selected (bpfIfname ifr (le 1)) twoLe.list = some (some ⟨some (le 1)⟩) := by
  have hsel : selected (bpfIfname (fun _ => 0) (le 1)) twoLe.list = some (some ⟨some (le 0)⟩) := by decide
  refine ⟨List.mem_cons_of_mem _ List.mem_cons_self, hsel, fun hall => ?_⟩
  have := hsel.symm.trans (hall fun _ => 0)
  exact absurd this (by decide)

end BsdKernel.BpfName
