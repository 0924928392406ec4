import Mathlib.Data.List.GetD
import Mathlib.Tactic
import BsdKernel.Lib.Bytes
/-!
# File names of dosfs

`unix2dosfn` and `dos2unixfn` of `dosfs/dosfs_conv.c`. A name in a directory entry is
8 characters and an extension of 3, both padded with blanks and in upper case, and a
first character 0xe5 is stored as 0x05. The name from `namei` is not terminated, so
`un` is a memory and `unlen` counts what is left of the component.

`un++` gets past the dot, but `unlen` stays: the loop over the extension may take one
character from behind the component (`dosfn_spill`).
-/

namespace BsdKernel.DosName

open BsdKernel.Lib

variable {c : Byte} {bs : List Byte} {un : Nat → Byte}

def SLOT_DELETED : Byte := 0xe5
def SLOT_E5 : Byte := 0x05

/-- `' '` -/
def blank : Byte := 0x20

/-- `'.'` -/
def dot : Byte := 0x2e

def isupper (c : Byte) : Bool := 0x41 ≤ c && c ≤ 0x5a
def islower (c : Byte) : Bool := 0x61 ≤ c && c ≤ 0x7a
def toupper (c : Byte) : Byte := c &&& ~~~blank
def tolower (c : Byte) : Byte := c ||| blank

def foldUp (c : Byte) : Byte := if islower c then toupper c else c
def foldDown (c : Byte) : Byte := if isupper c then tolower c else c

/-! ## To the name in a directory entry -/

/-- The local variables of `unix2dosfn`; `un` is the offset of the cursor. -/
structure Cursor where
  dn : List Byte
  un : Nat
  unlen : Nat
  c : Byte
  deriving DecidableEq, Repr

/-- The loops that copy to `dn`, from `dn[i]` on and for some number of turns: the one over the name stops at NUL and
at a dot, the one over the extension at NUL. -/
def copyLoop (un : Nat → Byte) (stop : Byte → Bool) : Nat → Nat → Cursor → Cursor
  | 0, _, s => s
  | turns + 1, i, s =>
    if s.unlen = 0 then s
    else if stop (un s.un) then { s with c := un s.un }
    else copyLoop un stop turns (i + 1)
      { dn := s.dn.set i (foldUp (un s.un)), un := s.un + 1, unlen := s.unlen - 1, c := un s.un }

/-- The loop over the characters behind the eighth. -/
def skipLoop (un : Nat → Byte) (stop : Byte → Bool) : Nat → Cursor → Cursor
  | 0, s => s
  | unlen + 1, s =>
    if stop (un s.un) then { s with c := un s.un }
    else skipLoop un stop unlen { s with un := s.un + 1, unlen := unlen, c := un s.un }

def nameStop (c : Byte) : Bool := c = 0 || c = dot
def extStop (c : Byte) : Bool := c = 0

/-- `c₀` is what `c` holds before it is first assigned. -/
def unix2dosfn (c₀ : Byte) (un : Nat → Byte) (unlen : Nat) : List Byte :=
  let dn := List.replicate 11 blank
  if un 0 = dot ∧ un 1 = 0 then dn.set 0 dot
  else if un 0 = dot ∧ un 1 = dot ∧ un 2 = 0 then (dn.set 0 dot).set 1 dot
  else
    let s := copyLoop un nameStop 8 0 { dn, un := 0, unlen, c := c₀ }
    let s := if s.dn.head? = some SLOT_DELETED then { s with dn := s.dn.set 0 SLOT_E5 } else s
    let s := skipLoop un nameStop s.unlen s
    -- `unlen` still counts the dot
    let s := if s.c = dot then { s with un := s.un + 1 } else s
    (copyLoop un extStop 3 8 s).dn

/-! ## From the name in a directory entry -/

/-- How many characters of the `n` from `dn[i]` on are left without the blanks at the end. -/
def lastOf (dn : List Byte) (i : Nat) : Nat → Nat
  | 0 => 0
  | n + 1 => if dn.getD (i + n) 0 ≠ blank then n + 1 else lastOf dn i n

def copyOut (dn : List Byte) (i n : Nat) : List Byte := (List.range n).map fun k => foldDown (dn.getD (i + k) 0)

/-- What is stored from `un` on, with the NUL, and `thislong`. -/
def dos2unixfn (dn : List Byte) : List Byte × Nat :=
  let ni := lastOf dn 0 8
  let ei := lastOf dn 8 3
  let un := copyOut dn 0 ni ++ if 0 < ei then dot :: copyOut dn 8 ei else []
  let thislong := un.length
  let un := un ++ [0]
  (if un.head? = some SLOT_E5 then un.set 0 SLOT_DELETED else un, thislong)

/-! ## Path components -/

/-- A character that a name in either form may have. -/
def plain (c : Byte) : Bool := !isupper c && c ≠ blank && c ≠ dot && c ≠ 0 && c ≠ SLOT_E5

/-- 1 to 8 characters and an extension of 1 to 3, or none. -/
structure Component where
  name : List Byte
  ext : List Byte
  name_plain : ∀ c ∈ name, plain c
  ext_plain : ∀ c ∈ ext, plain c
  name_pos : 0 < name.length
  name_short : name.length ≤ 8
  ext_short : ext.length ≤ 3

/-- The extension with its dot. -/
def dotted (ext : List Byte) : List Byte := if ext = [] then [] else dot :: ext

def Component.bytes (p : Component) : List Byte := p.name ++ dotted p.ext

def padded (n : Nat) (bs : List Byte) : List Byte := bs ++ List.replicate (n - bs.length) blank

def markE5 (bs : List Byte) : List Byte := if bs.head? = some SLOT_DELETED then bs.set 0 SLOT_E5 else bs

/-- The entry for a name and an extension. -/
def entry (name ext : List Byte) : List Byte := padded 8 (markE5 (name.map foldUp)) ++ padded 3 (ext.map foldUp)

/-- The memory from an offset on begins with these bytes. -/
def Reads (un : Nat → Byte) : Nat → List Byte → Prop
  | _, [] => True
  | a, b :: bs => un a = b ∧ Reads un (a + 1) bs

/-- Nothing is taken from behind the component: the extension is missing or full, or a NUL or a blank follows. -/
def Ends (p : Component) (un : Nat → Byte) : Prop :=
  p.ext.length = 0 ∨ p.ext.length = 3 ∨ un p.bytes.length = 0 ∨ un p.bytes.length = blank

section Reads
variable {un : Nat → Byte} {a : Nat} {bs cs : List Byte}

theorem Reads.append : Reads un a (bs ++ cs) ↔ Reads un a bs ∧ Reads un (a + bs.length) cs := by
  induction bs generalizing a with
  | nil => simp [Reads]
  | cons b bs ih => simp only [List.cons_append, Reads, ih, List.length_cons, and_assoc, Nat.add_assoc,
      Nat.add_comm 1]

theorem reads_getD (x : Byte) (bs cs : List Byte) : Reads (fun k => (bs ++ cs).getD k x) bs.length cs := by
  induction cs generalizing bs with
  | nil => trivial
  | cons c cs ih =>
    refine ⟨by simp, ?_⟩
    have h := ih (bs ++ [c])
    simpa using h

end Reads

/-! ## Folding -/

theorem isupper_of_islower : ∀ c, islower c → isupper (toupper c) ∧ tolower (toupper c) = c := by decide

theorem fold_fold (h : isupper c = false) : foldDown (foldUp c) = c := by
  unfold foldUp
  split
  · rename_i hl
    obtain ⟨hu, he⟩ := isupper_of_islower c hl
    rw [foldDown, if_pos hu, he]
  · rw [foldDown, h]
    rfl

theorem foldUp_eq_blank : ∀ c, foldUp c = blank ↔ c = blank := by decide

theorem foldUp_eq_deleted : ∀ c, foldUp c = SLOT_DELETED ↔ c = SLOT_DELETED := by decide

theorem plain_iff : plain c = true ↔ isupper c = false ∧ c ≠ blank ∧ c ≠ dot ∧ c ≠ 0 ∧ c ≠ SLOT_E5 := by
  simp [plain, and_assoc]

theorem nameStop_of_ne (h0 : c ≠ 0) (hd : c ≠ dot) : nameStop c = false := by
  rw [nameStop, decide_eq_false h0, decide_eq_false hd]
  rfl

theorem extStop_of_ne (h0 : c ≠ 0) : extStop c = false := decide_eq_false h0

/-! ## The loops -/

/-- Characters stored one behind the other. -/
def store (dn : List Byte) : Nat → List Byte → List Byte
  | _, [] => dn
  | i, b :: bs => store (dn.set i b) (i + 1) bs

theorem store_snoc (dn : List Byte) (i : Nat) (bs : List Byte) (b : Byte) :
    store dn i (bs ++ [b]) = store (store dn i bs) (i + bs.length) [b] := by
  induction bs generalizing dn i with
  | nil => rfl
  | cons c bs ih =>
    rw [List.cons_append, store, ih, List.length_cons, Nat.add_comm bs.length, ← Nat.add_assoc]
    rfl

theorem store_append (pre rest bs : List Byte) (h : bs.length ≤ rest.length) :
    store (pre ++ rest) pre.length bs = pre ++ bs ++ rest.drop bs.length := by
  induction bs generalizing pre rest with
  | nil => simp [store]
  | cons b bs ih =>
    obtain _ | ⟨r, rest⟩ := rest
    · simp at h
    · have hs : (pre ++ r :: rest).set pre.length b = (pre ++ [b]) ++ rest := by simp
      have hl : pre.length + 1 = (pre ++ [b]).length := by simp
      rw [store, hs, hl, ih _ _ (by simpa using h)]
      simp

section Loops
variable {un : Nat → Byte} {stop : Byte → Bool} {run : List Byte}
variable {s : Cursor}

/-- A run of characters at which the loop does not stop. -/
theorem copyLoop_run (turns i : Nat) (s : Cursor) (hr : Reads un s.un run) (hstop : ∀ c ∈ run, stop c = false)
    (hlen : run.length ≤ s.unlen) :
    copyLoop un stop (turns + run.length) i s = copyLoop un stop turns (i + run.length)
      { dn := store s.dn i (run.map foldUp), un := s.un + run.length, unlen := s.unlen - run.length,
        c := run.getLast?.getD s.c } := by
  induction run generalizing i s with
  | nil => rfl
  | cons b run ih =>
    obtain ⟨rfl, hr⟩ := hr
    have hb : stop (un s.un) = false := hstop _ (by simp)
    have hpos : s.unlen ≠ 0 := by simp at hlen; omega
    rw [List.length_cons, ← Nat.add_assoc, copyLoop, if_neg hpos, hb, if_neg (by simp)]
    rw [ih _ _ hr (fun c hc => hstop c (List.mem_cons_of_mem _ hc)) (by simp at hlen ⊢; omega)]
    simp [store, Nat.add_assoc, Nat.add_comm 1, Nat.sub_sub, List.getLast?_cons]

/-- The loop ends with the component. -/
theorem copyLoop_end {turns i : Nat} (h : s.unlen = 0) : copyLoop un stop turns i s = s := by
  cases turns with
  | zero => rfl
  | succ turns => rw [copyLoop, if_pos h]

theorem copyLoop_stop {turns i : Nat} (h : s.unlen ≠ 0) (hs : stop (un s.un)) :
    copyLoop un stop (turns + 1) i s = { s with c := un s.un } := by
  rw [copyLoop, if_neg h, if_pos hs]

theorem skipLoop_stop {unlen : Nat} (h : unlen ≠ 0) (hs : stop (un s.un)) :
    skipLoop un stop unlen s = { s with c := un s.un } := by
  obtain _ | unlen := unlen
  · exact absurd rfl h
  · rw [skipLoop, if_pos hs]

end Loops

/-! ## Storing a component -/

section Store
variable {p : Component} {un : Nat → Byte}

theorem dotted_length (ext : List Byte) : (dotted ext).length = if ext = [] then 0 else ext.length + 1 := by
  unfold dotted
  split <;> simp

/-- The loops over the name stop at the dot or at the end of the component. -/
theorem name_loops (h : Reads un 0 p.bytes) (dn : List Byte) (c₀ : Byte) :
    ∃ c, copyLoop un nameStop 8 0 { dn, un := 0, unlen := p.bytes.length, c := c₀ } =
        { dn := store dn 0 (p.name.map foldUp), un := p.name.length, unlen := (dotted p.ext).length, c } ∧
      ∀ dn', skipLoop un nameStop (dotted p.ext).length
          { dn := dn', un := p.name.length, unlen := (dotted p.ext).length, c } =
        { dn := dn', un := p.name.length, unlen := (dotted p.ext).length, c := if p.ext = [] then c else dot } ∧
        (p.ext = [] → c ≠ dot) := by
  obtain ⟨hn, he⟩ := Reads.append.1 h
  have hplain : ∀ c ∈ p.name, nameStop c = false := by
    intro c hc
    have h := plain_iff.1 (p.name_plain c hc)
    exact nameStop_of_ne h.2.2.2.1 h.2.2.1
  have hrun := copyLoop_run (8 - p.name.length) 0 { dn, un := 0, unlen := p.bytes.length, c := c₀ } hn hplain (by simp [Component.bytes])
  rw [Nat.sub_add_cancel p.name_short] at hrun
  rw [hrun]
  have hlen : p.bytes.length - p.name.length = (dotted p.ext).length := by simp [Component.bytes]
  simp only [Nat.zero_add, hlen]
  by_cases hx : p.ext = []
  · have h0 : (dotted p.ext).length = 0 := by rw [dotted_length, if_pos hx]
    refine ⟨p.name.getLast?.getD c₀, copyLoop_end h0, ?_⟩
    intro dn'
    rw [if_pos hx, h0]
    refine ⟨rfl, fun _ => ?_⟩
    have hne : p.name ≠ [] := List.length_pos_iff.1 p.name_pos
    rw [List.getLast?_eq_some_getLast hne]
    exact (plain_iff.1 (p.name_plain _ (List.getLast_mem hne))).2.2.1
  · have h0 : (dotted p.ext).length ≠ 0 := by rw [dotted_length, if_neg hx]; omega
    have hdot : un p.name.length = dot := by
      rw [dotted, if_neg hx] at he
      simpa using he.1
    have hstop : nameStop (un p.name.length) = true := by rw [hdot]; decide
    have hskip : ∀ c dn', skipLoop un nameStop (dotted p.ext).length
        { dn := dn', un := p.name.length, unlen := (dotted p.ext).length, c } =
        { dn := dn', un := p.name.length, unlen := (dotted p.ext).length, c := if p.ext = [] then c else dot } := by
      intro c dn'
      rw [skipLoop_stop h0 hstop, if_neg hx, hdot]
    obtain h8 | h8 : 8 - p.name.length = 0 ∨ ∃ t, 8 - p.name.length = t + 1 := by
      cases 8 - p.name.length <;> simp
    · rw [h8]
      exact ⟨_, rfl, fun dn' => ⟨hskip _ dn', fun h => absurd h hx⟩⟩
    · obtain ⟨t, ht⟩ := h8
      rw [ht, copyLoop_stop h0 hstop]
      exact ⟨_, rfl, fun dn' => ⟨hskip _ dn', fun h => absurd h hx⟩⟩

/-- The extension as it is stored: a character from behind the component may follow. -/
def Component.spilled (p : Component) (un : Nat → Byte) : List Byte :=
  if p.ext.length = 0 ∨ p.ext.length = 3 ∨ un p.bytes.length = 0 then p.ext else p.ext ++ [un p.bytes.length]

theorem spilled_length (p : Component) (un : Nat → Byte) : (p.spilled un).length ≤ 3 := by
  have := p.ext_short
  unfold Component.spilled
  split
  · exact this
  · simp
    omega

/-- The loop over the extension. -/
theorem ext_loop (h : Reads un 0 p.bytes) (dn : List Byte) (c : Byte) (hx : p.ext ≠ []) :
    (copyLoop un extStop 3 8
      { dn, un := p.name.length + 1, unlen := (dotted p.ext).length, c }).dn =
      store dn 8 ((p.spilled un).map foldUp) := by
  obtain ⟨-, he⟩ := Reads.append.1 h
  rw [dotted, if_neg hx] at he
  have hbytes : p.bytes.length = p.name.length + 1 + p.ext.length := by
    simp [Component.bytes, dotted_length, hx]
    omega
  have hread : Reads un (p.name.length + 1) p.ext := by simpa using he.2
  have hplain : ∀ c ∈ p.ext, extStop c = false := by
    intro c hc
    exact extStop_of_ne (plain_iff.1 (p.ext_plain c hc)).2.2.2.1
  have hrun := copyLoop_run (3 - p.ext.length) 8
    { dn, un := p.name.length + 1, unlen := (dotted p.ext).length, c } hread hplain
    (by simp only [dotted_length, if_neg hx]; omega)
  rw [Nat.sub_add_cancel p.ext_short] at hrun
  rw [hrun]
  have hone : (dotted p.ext).length - p.ext.length = 1 := by rw [dotted_length, if_neg hx]; omega
  have hpos : p.ext.length ≠ 0 := fun h => hx (List.length_eq_zero_iff.1 h)
  simp only [hone, ← hbytes]
  obtain h3 | ⟨t, ht⟩ : 3 - p.ext.length = 0 ∨ ∃ t, 3 - p.ext.length = t + 1 := by
    cases 3 - p.ext.length <;> simp
  · have hfull : p.ext.length = 3 := by have := p.ext_short; omega
    rw [h3, Component.spilled, if_pos (Or.inr (Or.inl hfull))]
    rfl
  · have hroom : p.ext.length ≠ 3 := by omega
    rw [ht]
    by_cases h0 : un p.bytes.length = 0
    · rw [copyLoop_stop Nat.one_ne_zero (decide_eq_true h0), Component.spilled, if_pos (Or.inr (Or.inr h0))]
    · have hread : Reads un p.bytes.length [un p.bytes.length] := ⟨rfl, trivial⟩
      have hone := copyLoop_run t (8 + p.ext.length)
        { dn := store dn 8 (p.ext.map foldUp), un := p.bytes.length, unlen := 1, c := p.ext.getLast?.getD c }
        hread (by simpa using extStop_of_ne h0 : ∀ c ∈ [un p.bytes.length], extStop c = false) (by simp)
      rw [List.length_singleton] at hone
      rw [hone, copyLoop_end rfl, Component.spilled, if_neg (not_or.2 ⟨hpos, not_or.2 ⟨hroom, h0⟩⟩)]
      simp [store_snoc]

theorem markE5_length (bs : List Byte) : (markE5 bs).length = bs.length := by
  unfold markE5
  split <;> simp

theorem markE5_append {as : List Byte} (h : as ≠ []) : markE5 (as ++ bs) = markE5 as ++ bs := by
  obtain _ | ⟨a, as⟩ := as
  · exact absurd rfl h
  · by_cases hd : a = SLOT_DELETED
    · simp [markE5, hd]
    · simp [markE5, hd]

theorem padded_length {n : Nat} (h : bs.length ≤ n) : (padded n bs).length = n := by
  simp [padded]
  omega

theorem store_name (p : Component) :
    markE5 (store (List.replicate 11 blank) 0 (p.name.map foldUp)) =
      padded 8 (markE5 (p.name.map foldUp)) ++ List.replicate 3 blank := by
  have hs := store_append [] (List.replicate 11 blank) (p.name.map foldUp)
    (by have := p.name_short; simp; omega)
  have hrest : List.replicate (11 - p.name.length) blank =
      List.replicate (8 - p.name.length) blank ++ List.replicate 3 blank := by
    rw [List.replicate_append_replicate]
    congr 1
    have := p.name_short
    omega
  rw [List.nil_append, List.nil_append, List.length_nil] at hs
  rw [hs, List.drop_replicate, List.length_map, hrest, padded, markE5_length, List.length_map]
  have hne : p.name.map foldUp ≠ [] := by simpa using List.length_pos_iff.1 p.name_pos
  rw [markE5_append hne, List.append_assoc]

theorem unix2dosfn_eq (c₀ : Byte) (h : Reads un 0 p.bytes) :
    unix2dosfn c₀ un p.bytes.length = entry p.name (p.spilled un) := by
  have h0 : un 0 ≠ dot := by
    obtain ⟨c, cs, hc⟩ := List.exists_cons_of_length_pos (l := p.name) p.name_pos
    rw [Component.bytes, hc] at h
    rw [h.1]
    exact (plain_iff.1 (p.name_plain c (by simp [hc]))).2.2.1
  obtain ⟨c, hcopy, hskip⟩ := name_loops h (List.replicate 11 blank) c₀
  have hmark := store_name p
  rw [unix2dosfn, if_neg (fun h => h0 h.1), if_neg (fun h => h0 h.1)]
  simp only [hcopy]
  have hset : ∀ (dn : List Byte) (un unlen : Nat) (c : Byte),
      (if dn.head? = some SLOT_DELETED then ({ dn := dn.set 0 SLOT_E5, un, unlen, c } : Cursor)
        else { dn, un, unlen, c }) = { dn := markE5 dn, un, unlen, c } := by
    intro dn un unlen c
    unfold markE5
    split <;> rfl
  rw [hset]
  simp only [hmark, (hskip _).1]
  have hpad : (padded 8 (markE5 (p.name.map foldUp))).length = 8 :=
    padded_length (by rw [markE5_length, List.length_map]; exact p.name_short)
  by_cases hx : p.ext = []
  · simp only [if_pos hx, if_neg ((hskip []).2 hx)]
    rw [copyLoop_end (by rw [dotted_length, if_pos hx]), Component.spilled, if_pos (Or.inl (by rw [hx]; rfl)), hx]
    rfl
  · simp only [if_neg hx, if_true]
    rw [ext_loop h _ _ hx]
    have hs := store_append (padded 8 (markE5 (p.name.map foldUp))) (List.replicate 3 blank)
      ((p.spilled un).map foldUp) (by simpa using spilled_length p un)
    rw [hpad] at hs
    rw [hs, entry, List.drop_replicate, List.append_assoc]
    rfl

end Store

/-! ## Reading an entry -/

section Entry
variable {dn : List Byte} {i n m : Nat}

theorem lastOf_eq (hm : m ≤ n) (hlast : m = 0 ∨ dn.getD (i + (m - 1)) 0 ≠ blank)
    (hrest : ∀ j, m ≤ j → j < n → dn.getD (i + j) 0 = blank) : lastOf dn i n = m := by
  induction n with
  | zero => exact (Nat.le_zero.1 hm).symm
  | succ n ih =>
    rw [lastOf]
    split
    · rename_i hne
      by_contra hlt
      exact hne (hrest n (by omega) (Nat.lt_succ_self n))
    · rename_i hb
      refine ih ?_ (fun j h1 h2 => hrest j h1 (by omega))
      by_contra hlt
      obtain rfl : m = n + 1 := by omega
      obtain h | h := hlast
      · omega
      · exact hb h

theorem padded_getD {j : Nat} (hj : j < n) : (padded n bs).getD j 0 = bs.getD j blank := by
  rw [padded]
  by_cases h : j < bs.length
  · rw [List.getD_append _ _ _ _ h, List.getD_eq_getElem _ _ h, List.getD_eq_getElem _ _ h]
  · have hr : j - bs.length < (List.replicate (n - bs.length) blank).length := by rw [List.length_replicate]; omega
    rw [List.getD_append_right _ _ _ _ (by omega), List.getD_eq_getElem _ _ hr, List.getElem_replicate,
      List.getD_eq_default _ _ (by omega)]

/-- Characters padded with blanks are read back if none of them is a blank. -/
theorem read_padded (n : Nat) (pre bs post : List Byte) (hn : bs.length ≤ n) (hb : ∀ b ∈ bs, b ≠ blank) :
    lastOf (pre ++ padded n bs ++ post) pre.length n = bs.length ∧
      copyOut (pre ++ padded n bs ++ post) pre.length bs.length = bs.map foldDown := by
  have hget : ∀ j, j < n → (pre ++ padded n bs ++ post).getD (pre.length + j) 0 = bs.getD j blank := by
    intro j hj
    have hl := padded_length hn
    rw [List.append_assoc, List.getD_append_right _ _ _ _ (by omega), Nat.add_sub_cancel_left,
      List.getD_append _ _ _ _ (by omega), padded_getD hj]
  constructor
  · refine lastOf_eq hn ?_ ?_
    · by_cases h0 : bs.length = 0
      · exact Or.inl h0
      · right
        rw [hget _ (by omega), List.getD_eq_getElem _ _ (by omega)]
        exact hb _ (List.getElem_mem _)
    · intro j h1 h2
      rw [hget j h2, List.getD_eq_default _ _ h1]
  · refine List.ext_getElem (by simp [copyOut]) ?_
    intro j h1 h2
    have hj : j < bs.length := by simpa [copyOut] using h1
    simp only [copyOut, List.getElem_map, List.getElem_range]
    rw [hget j (by omega), List.getD_eq_getElem _ _ hj]

end Entry

section RoundTrip
variable {p : Component} {ext : List Byte}

theorem foldUp_ne_blank (h : ∀ c ∈ bs, c ≠ blank) : ∀ b ∈ bs.map foldUp, b ≠ blank := by
  intro b hb
  obtain ⟨c, hc, rfl⟩ := List.mem_map.1 hb
  exact fun he => h c hc ((foldUp_eq_blank c).1 he)

theorem fold_fold_map (h : ∀ c ∈ bs, isupper c = false) : (bs.map foldUp).map foldDown = bs := by
  rw [List.map_map]
  conv_rhs => rw [← List.map_id bs]
  exact List.map_congr_left fun c hc => fold_fold (h c hc)

/-- 0x05 stays what it is until the end. -/
theorem markE5_fold (h : ∀ c ∈ bs, isupper c = false) : (markE5 (bs.map foldUp)).map foldDown = markE5 bs := by
  have hf := fold_fold_map h
  have hh : (bs.map foldUp).head? = some SLOT_DELETED ↔ bs.head? = some SLOT_DELETED := by
    cases bs <;> simp [foldUp_eq_deleted]
  unfold markE5
  by_cases hd : bs.head? = some SLOT_DELETED
  · rw [if_pos (hh.2 hd), if_pos hd, List.map_set, hf]
    rfl
  · rw [if_neg (fun h => hd (hh.1 h)), if_neg hd, hf]

theorem markE5_ne_blank (h : ∀ c ∈ bs, c ≠ blank) : ∀ b ∈ markE5 bs, b ≠ blank := by
  intro b hb
  unfold markE5 at hb
  split at hb
  · obtain hb | rfl := List.mem_or_eq_of_mem_set hb
    · exact h b hb
    · decide
  · exact h b hb

theorem markE5_back {cs : List Byte} (h : c ≠ SLOT_E5) :
    (if (markE5 (c :: cs) ++ bs).head? = some SLOT_E5 then (markE5 (c :: cs) ++ bs).set 0 SLOT_DELETED
      else markE5 (c :: cs) ++ bs) = c :: cs ++ bs := by
  by_cases hd : c = SLOT_DELETED
  · simp [markE5, hd]
  · simp [markE5, hd, h]

/-- An entry is read back as its name and its extension. -/
theorem dos2unixfn_entry (hlen : ext.length ≤ 3) (hb : ∀ c ∈ ext, c ≠ blank) :
    (dos2unixfn (entry p.name ext)).2 = p.name.length + (dotted ext).length ∧
      ((∀ c ∈ ext, isupper c = false) → (dos2unixfn (entry p.name ext)).1 = p.name ++ dotted ext ++ [0]) := by
  have hplain : ∀ c ∈ p.name, isupper c = false ∧ c ≠ blank := fun c hc =>
    ⟨(plain_iff.1 (p.name_plain c hc)).1, (plain_iff.1 (p.name_plain c hc)).2.1⟩
  have hA : (markE5 (p.name.map foldUp)).length = p.name.length := by rw [markE5_length, List.length_map]
  have hE : (ext.map foldUp).length = ext.length := List.length_map _
  have hname := read_padded 8 [] (markE5 (p.name.map foldUp)) (padded 3 (ext.map foldUp))
    (by rw [hA]; exact p.name_short) (markE5_ne_blank (foldUp_ne_blank fun c hc => (hplain c hc).2))
  have hext := read_padded 3 (padded 8 (markE5 (p.name.map foldUp))) (ext.map foldUp) []
    (by rw [hE]; exact hlen) (foldUp_ne_blank hb)
  rw [List.nil_append, List.length_nil, hA] at hname
  rw [List.append_nil, padded_length (by rw [hA]; exact p.name_short), hE] at hext
  rw [markE5_fold fun c hc => (hplain c hc).1] at hname
  have hmark : (markE5 p.name).length = p.name.length := markE5_length _
  have hdot : (if 0 < ext.length then dot :: (ext.map foldUp).map foldDown else []) =
      dotted ((ext.map foldUp).map foldDown) := by
    cases ext <;> simp [dotted]
  simp only [dos2unixfn, entry, hname.1, hname.2, hext.1, hext.2, hdot]
  constructor
  · rw [List.length_append, hmark, dotted_length, dotted_length]
    simp
  · intro hup
    obtain ⟨c, cs, hc⟩ := List.exists_cons_of_length_pos (l := p.name) p.name_pos
    have h5 : c ≠ SLOT_E5 := (plain_iff.1 (p.name_plain c (by simp [hc]))).2.2.2.2
    rw [fold_fold_map hup, hc, List.append_assoc, markE5_back h5, List.append_assoc]

theorem entry_blank (name : List Byte) (h : ext.length < 3) : entry name (ext ++ [blank]) = entry name ext := by
  have hr : 3 - ext.length = 3 - (ext.length + 1) + 1 := by omega
  have hb : foldUp blank = blank := (foldUp_eq_blank blank).2 rfl
  have hp : padded 3 ((ext ++ [blank]).map foldUp) = padded 3 (ext.map foldUp) := by
    rw [List.map_append, List.map_singleton, hb, padded, padded, List.length_append, List.length_map,
      List.length_singleton, hr, List.replicate_succ, List.append_assoc, List.singleton_append]
  rw [entry, hp, entry]

theorem spilled_of_ends (h : Ends p un) : entry p.name (p.spilled un) = entry p.name p.ext := by
  unfold Component.spilled
  split
  · rfl
  · rename_i hs
    obtain ⟨-, h3, h0⟩ : p.ext.length ≠ 0 ∧ p.ext.length ≠ 3 ∧ un p.bytes.length ≠ 0 := by
      refine ⟨fun h => hs (Or.inl h), fun h => hs (Or.inr (Or.inl h)), fun h => hs (Or.inr (Or.inr h))⟩
    have hb : un p.bytes.length = blank := by
      obtain h | h | h | h := h
      · exact absurd (Or.inl h) hs
      · exact absurd h h3
      · exact absurd h h0
      · exact h
    rw [hb, entry_blank _ (by have := p.ext_short; omega)]

/-- The entry that the component itself determines. -/
def Component.dosName (p : Component) : List Byte := entry p.name p.ext

/-- What `unix2dosfn` stores is the entry of the component, and `dos2unixfn` gives the component back. -/
def Faithful (p : Component) (c₀ : Byte) (un : Nat → Byte) : Prop :=
  unix2dosfn c₀ un p.bytes.length = p.dosName ∧
    dos2unixfn (unix2dosfn c₀ un p.bytes.length) = (p.bytes ++ [0], p.bytes.length)

theorem faithful_of_ends {c₀ : Byte} (h : Reads un 0 p.bytes) (he : Ends p un) : Faithful p c₀ un := by
  have hu := (unix2dosfn_eq c₀ h).trans (spilled_of_ends he)
  obtain ⟨hlen, hback⟩ := dos2unixfn_entry (p := p) p.ext_short fun c hc => (plain_iff.1 (p.ext_plain c hc)).2.1
  refine ⟨hu, ?_⟩
  rw [hu, Component.bytes, List.length_append]
  exact Prod.ext (hback fun c hc => (plain_iff.1 (p.ext_plain c hc)).1) hlen

/-- The length tells that a character too much was taken. -/
theorem ends_of_length {c₀ : Byte} (h : Reads un 0 p.bytes)
    (hlen : (dos2unixfn (unix2dosfn c₀ un p.bytes.length)).2 = p.bytes.length) : Ends p un := by
  by_contra hne
  obtain ⟨h0, h3, hnul, hblank⟩ : p.ext.length ≠ 0 ∧ p.ext.length ≠ 3 ∧ un p.bytes.length ≠ 0 ∧
      un p.bytes.length ≠ blank := by
    simpa [Ends] using hne
  have hs : p.spilled un = p.ext ++ [un p.bytes.length] := if_neg (not_or.2 ⟨h0, not_or.2 ⟨h3, hnul⟩⟩)
  have hb : ∀ c ∈ p.ext ++ [un p.bytes.length], c ≠ blank := by
    intro c hc
    obtain hc | hc := List.mem_append.1 hc
    · exact (plain_iff.1 (p.ext_plain c hc)).2.1
    · rw [List.mem_singleton.1 hc]
      exact hblank
  have hx : p.ext ≠ [] := fun h => h0 (by rw [h]; rfl)
  have hl := spilled_length p un
  rw [hs] at hl
  rw [unix2dosfn_eq c₀ h, hs, (dos2unixfn_entry hl hb).1, Component.bytes, List.length_append, dotted_length,
    dotted_length, if_neg hx, if_neg (by simp)] at hlen
  simp at hlen

end RoundTrip

/-! ## The round trip -/

/-- The bytes of a component and nothing but `x` behind them. -/
def followed (bs : List Byte) (x : Byte) : Nat → Byte := fun k => bs.getD k x

theorem reads_followed (bs : List Byte) (x : Byte) : Reads (followed bs x) 0 bs := reads_getD x [] bs

theorem followed_end (bs : List Byte) (x : Byte) : followed bs x bs.length = x := List.getD_eq_default _ _ (Nat.le_refl _)

/-- A component comes back from its entry exactly if nothing is taken from behind it. What is behind it never matters
if it has no extension or one of three characters, and always can otherwise. -/
theorem dosfn_spill (p : Component) (c₀ : Byte) :
    (∀ un, Reads un 0 p.bytes → (Faithful p c₀ un ↔ Ends p un)) ∧
      ((∀ un un', Reads un 0 p.bytes → Reads un' 0 p.bytes →
        unix2dosfn c₀ un p.bytes.length = unix2dosfn c₀ un' p.bytes.length) ↔ p.ext.length = 0 ∨ p.ext.length = 3) := by
  have hiff : ∀ un, Reads un 0 p.bytes → (Faithful p c₀ un ↔ Ends p un) := fun un h =>
    ⟨fun hf => ends_of_length h (by rw [hf.2]), faithful_of_ends h⟩
  refine ⟨hiff, ?_, ?_⟩
  · intro h
    have h0 := reads_followed p.bytes 0
    have ha := reads_followed p.bytes dot
    have hf := (hiff _ h0).2 (Or.inr (Or.inr (Or.inl (followed_end _ _))))
    have hlen : (dos2unixfn (unix2dosfn c₀ (followed p.bytes dot) p.bytes.length)).2 = p.bytes.length := by
      rw [h _ _ ha h0, hf.2]
    obtain he | he | he | he := ends_of_length ha hlen
    · exact Or.inl he
    · exact Or.inr he
    · rw [followed_end] at he
      exact absurd he (by decide)
    · rw [followed_end] at he
      exact absurd he (by decide)
  · intro h un un' hu hu'
    have he : ∀ v, Ends p v := fun v => h.elim Or.inl fun h => Or.inr (Or.inl h)
    rw [((hiff un hu).2 (he un)).1, ((hiff un' hu').2 (he un')).1]

/-- `a.b` -/
def shortExt : Component where
  name := [0x61]
  ext := [0x62]
  name_plain := by decide
  ext_plain := by decide
  name_pos := by decide
  name_short := by decide
  ext_short := by decide

theorem dosfn_spill_short :
    Faithful shortExt 0 (followed shortExt.bytes 0) ∧
      ¬ Faithful shortExt 0 (followed shortExt.bytes 0x2f) := by
  refine ⟨((dosfn_spill shortExt 0).1 _ (reads_followed _ _)).2 (Or.inr (Or.inr (Or.inl (followed_end _ _)))), ?_⟩
  rw [(dosfn_spill shortExt 0).1 _ (reads_followed _ _), Ends, followed_end]
  decide

/-- `a.b` followed by a slash is stored as `A.B/`. -/
theorem dosfn_slash_behind :
    ¬ ∀ (p : Component) (c₀ : Byte) (un : Nat → Byte), Reads un 0 p.bytes →
      dos2unixfn (unix2dosfn c₀ un p.bytes.length) = (p.bytes ++ [0], p.bytes.length) := by
  intro h
  have hc := h shortExt 0 (followed shortExt.bytes 0x2f) (reads_followed _ _)
  exact absurd hc (by decide)

end BsdKernel.DosName
