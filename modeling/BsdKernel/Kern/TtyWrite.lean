import BsdKernel.Kern.Tty
import BsdKernel.Lib.Trace
import Mathlib.Data.List.TakeWhile
import Mathlib.Tactic.Common
/-!
# Output on a terminal

`ttyoutput` of `kern/tty.c` translates a character for the output queue, and
`ttwrite` writes the user's data: it hands ordinary characters to the queue in
bulk and the others to `ttyoutput`, and sleeps where the queue has no room. The
model of `ttwrite` goes from one test of the source to the next, and what the
queue takes, the device drains and a sleep returns comes from outside.

`ttwrite_iff` says which writes put exactly the translation of the bytes they
consume on the queue, the translation being what `ttyoutput` makes of them on a
queue that never fills.
-/

namespace BsdKernel.Tty

open BsdKernel.Lib

variable {rest : List UInt8}

/-! ## Output of a character -/

/-- The flags of `c_oflag` and `c_lflag` that output reads. -/
structure Oflag where
  opost : Bool
  oxtabs : Bool
  onlcr : Bool
  onoeot : Bool
  extproc : Bool
  flusho : Bool

def CEOT : UInt8 := 0x04

/-- What a call puts on the output queue, `t_column` after it, and whether the character is out:
if not, it has to be sent again. -/
structure Sent where
  chars : List UInt8
  column : Int16
  out : Bool
  deriving DecidableEq

/-- The column behind a character that is out. -/
def advance (c : UInt8) (col : Int16) : Int16 :=
  if CCLASS c = BACKSPACE then if 0 < col then col - 1 else col
  else if CCLASS c = CONTROL then col
  else if CCLASS c = NEWLINE ∨ CCLASS c = RETURN then 0
  else if CCLASS c = ORDINARY then col + 1
  else if CCLASS c = TAB then (col + 8) &&& ~~~7
  else col

/-- The blanks up to the next tab stop. -/
def blanks (col : Int16) : Nat := 8 - (col.toUInt16 &&& 7).toNat

/-- What a queue takes of `n` characters: `space` of them at most, or all if it never fills. -/
def takes (space : Option Nat) (n : Nat) : Nat :=
  match space with
  | none => n
  | some k => min k n

/-- `ttyoutput`, on a queue with that space. -/
def ttyoutput (o : Oflag) (space : Option Nat) (c : UInt8) (col : Int16) : Sent :=
  if ¬o.opost then
    if o.flusho then ⟨[], col, true⟩
    else if takes space 1 = 1 then ⟨[c], col, true⟩ else ⟨[], col, false⟩
  else if c = 0x09 ∧ o.oxtabs ∧ ¬o.extproc then
    if o.flusho then ⟨[], col + .ofNat (blanks col), true⟩
    else
      let n := takes space (blanks col)
      ⟨List.replicate n 0x20, col + .ofNat n, n = blanks col⟩
  else if c = CEOT ∧ o.onoeot then ⟨[], col, true⟩
  else if c = 0x0a ∧ o.onlcr then
    -- the `putc` of the CR does not look at FLUSHO
    if takes space 2 = 0 then ⟨[], col, false⟩
    else if o.flusho then ⟨[0x0d], advance c col, true⟩
    else if takes space 2 = 1 then ⟨[0x0d], col, false⟩
    else ⟨[0x0d, 0x0a], advance c col, true⟩
  else if o.flusho then ⟨[], advance c col, true⟩
  else if takes space 1 = 1 then ⟨[c], advance c col, true⟩
  else ⟨[], col, false⟩

/-- What `ttyoutput` makes of the characters one by one on a queue that never fills. -/
def translate (o : Oflag) : Int16 → List UInt8 → List UInt8 × Int16
  | col, [] => ([], col)
  | col, c :: cs =>
    let r := ttyoutput o none c col
    let t := translate o r.column cs
    (r.chars ++ t.1, t.2)

/-! ## Writing -/

def OBUFSIZ : Nat := 100

/-- The settings of a terminal and of the write. -/
structure Setting extends Oflag where
  /-- TS_CARR_ON or CLOCAL -/
  carrier : Bool
  isopen : Bool
  ndelay : Bool
  hiwat : Int

/-- Where a process is in `ttwrite`. -/
inductive Place where
  | loop
  /-- at the head of the loop over hunks -/
  | hunk
  /-- at the head of the loop over the characters of a hunk -/
  | chars
  | ovhiwat
  /-- returned, with that much in `uio_resid` -/
  | done (resid : Nat)
  deriving DecidableEq

/-- A write: the user's bytes not yet moved, those of `obuf` from `cp` on, `t_column` and what the
write put on the output queue. `begun` says that `ttyoutput` left the character at `cp` half done. -/
structure Write where
  place : Place
  data : List UInt8
  buf : List UInt8
  column : Int16
  added : List UInt8
  begun : Bool
  deriving DecidableEq

/-- What happens outside up to the next test: the count that is found on the output queue, the
space on it, the error of a sleep, whether the process is to be stopped for being in the
background, and a fault of `uiomove` with what was moved before it. -/
structure Event where
  c_cc : Int
  space : Nat
  sleepError : Bool
  background : Bool
  fault : Option Nat

variable (o : Setting)

/-- `out`: the leftover goes back to `uio_resid`. -/
def Write.exit (s : Write) : Write := { s with place := .done (s.data.length + s.buf.length) }

/-- A sleep that may end with an error. -/
def Write.sleep (s : Write) (e : Event) : Write := if e.sleepError then s.exit else { s with place := .loop }

/-- A shortage: a sleep whose error only ends the loop over the characters. -/
def Write.shortage (s : Write) (e : Event) : Write := { s with place := if e.sleepError then .hunk else .loop }

/-- A character that needs `ttyoutput`. -/
def putSpecial (e : Event) (c : UInt8) (rest : List UInt8) (s : Write) : Write :=
  let r := ttyoutput o.toOflag (some e.space) c s.column
  let s := { s with column := r.column, added := s.added ++ r.chars }
  if ¬r.out then Write.shortage { s with begun := s.begun || !r.chars.isEmpty } e
  else
    let s := { s with buf := rest, begun := false }
    if o.flusho ∨ o.hiwat < e.c_cc then { s with place := .ovhiwat } else s

/-- A bunch of characters for the queue, with what is behind it in `obuf`. -/
def putBunch (e : Event) (bunch rest : List UInt8) (s : Write) : Write :=
  let ce := takes (some e.space) bunch.length
  let s := { s with
    column := s.column + .ofNat ce, added := s.added ++ bunch.take ce, buf := bunch.drop ce ++ rest }
  if ce < bunch.length then s.shortage e
  else if o.flusho ∨ o.hiwat < e.c_cc then { s with place := .hunk }
  else s

/-- `scanc`: the character needs no processing by `ttyoutput`. -/
def ordinary (c : UInt8) : Bool := CCLASS c == ORDINARY

/-- `ttwrite` up to its next test. -/
def ttwrite (s : Write) (e : Event) : Write :=
  match s.place with
  | .loop =>
    if ¬o.carrier then
      if o.isopen then { s with place := .done s.data.length }
      else if o.ndelay then s.exit
      else s.sleep e
    else if e.background then s.sleep e
    else { s with place := .hunk }
  | .hunk =>
    if s.data = [] ∧ s.buf = [] then s.exit
    else if o.flusho then { s with place := .done 0 }
    else if o.hiwat < e.c_cc then { s with place := .ovhiwat }
    else if s.buf = [] then
      match e.fault with
      | some m => Write.exit { s with data := s.data.drop (min m OBUFSIZ) }
      | none => { s with place := .chars, buf := s.data.take OBUFSIZ, data := s.data.drop OBUFSIZ }
    else { s with place := .chars }
  | .chars =>
    match s.buf with
    | [] => { s with place := .hunk }
    | c :: rest =>
      if ¬o.opost then putBunch o e (c :: rest) [] s
      else if ordinary c then putBunch o e ((c :: rest).takeWhile ordinary) ((c :: rest).dropWhile ordinary) s
      else putSpecial o e c rest s
  | .ovhiwat =>
    if e.c_cc ≤ o.hiwat then { s with place := .loop }
    else if o.ndelay then s.exit
    else s.sleep e
  | .done _ => s

/-- A write at its beginning. -/
def writeOf (data : List UInt8) (col : Int16) : Write := ⟨.loop, data, [], col, [], false⟩

/-! ## What the write should do -/

/-- What the write put on the queue is the translation of the bytes it consumed, `uio_resid` being
`resid` at its end, and `t_column` is the column behind them. -/
structure Agrees (data : List UInt8) (col : Int16) (resid : Nat) (s : Write) : Prop where
  added : s.added = (translate o.toOflag col (data.take (data.length - resid))).1
  column : s.column = (translate o.toOflag col (data.take (data.length - resid))).2

/-- The write returns between two tests, for a sleep's error or because it must not block. -/
def Leaves (s : Write) (e : Event) : Prop :=
  match s.place with
  | .loop => e.background = true ∧ e.sleepError = true
  | .ovhiwat => o.hiwat < e.c_cc ∧ (o.ndelay = true ∨ e.sleepError = true)
  | _ => False

/-- The condition on a step: the queue does not take the CR of a newline and refuse its NL, the write
does not return over a tab that is half out, and what `uiomove` moved before a fault has no output. -/
structure Whole (s : Write) (e : Event) : Prop where
  newline : s.place = .chars → s.buf.head? = some 0x0a → o.onlcr = true → e.space ≠ 1
  tab : s.begun = true → ¬Leaves o s e
  fault : ∀ m, s.place = .hunk → s.buf = [] → e.c_cc ≤ o.hiwat → e.fault = some m →
    ∀ c ∈ s.data.take (min m OBUFSIZ), c = CEOT ∧ o.onoeot = true

variable {o} {s : Write} {data : List UInt8} {col : Int16} {c : UInt8}

/-! ## The translation -/

theorem translate_append (o : Oflag) (col : Int16) (xs ys : List UInt8) :
    translate o col (xs ++ ys) =
      ((translate o col xs).1 ++ (translate o (translate o col xs).2 ys).1, (translate o (translate o col xs).2 ys).2) := by
  induction xs generalizing col with
  | nil => rfl
  | cons c xs ih => simp only [List.cons_append, translate, ih, List.append_assoc]

theorem translate_singleton (o : Oflag) (col : Int16) (c : UInt8) :
    translate o col [c] = ((ttyoutput o none c col).chars, (ttyoutput o none c col).column) := by
  simp [translate]

theorem ordinary_output (hp : o.opost = true) (hf : o.flusho = false) (h : ordinary c = true) (col : Int16) :
    ttyoutput o.toOflag none c col = ⟨[c], col + 1, true⟩ := by
  have hclass : CCLASS c = ORDINARY := by simpa [ordinary] using h
  have htab : c ≠ 0x09 := by rintro rfl; exact absurd hclass (by decide)
  have heot : c ≠ CEOT := by rintro rfl; exact absurd hclass (by decide)
  have hnl : c ≠ 0x0a := by rintro rfl; exact absurd hclass (by decide)
  have hadv : advance c col = col + 1 := by simp [advance, hclass, ORDINARY, BACKSPACE, CONTROL, NEWLINE, RETURN]
  simp [ttyoutput, hp, hf, htab, heot, hnl, hadv, takes]

theorem translate_ordinary (hp : o.opost = true) (hf : o.flusho = false) {cs : List UInt8}
    (h : ∀ c ∈ cs, ordinary c = true) (col : Int16) :
    translate o.toOflag col cs = (cs, col + .ofNat cs.length) := by
  induction cs generalizing col with
  | nil => simp [translate]
  | cons c cs ih =>
    have hc := ordinary_output hp hf (h c List.mem_cons_self) col
    simp only [translate, hc, ih (fun d hd => h d (List.mem_cons_of_mem c hd)), List.length_cons, List.singleton_append,
      Int16.ofNat_add]
    rw [Int16.add_assoc, Int16.add_comm 1]
    rfl

theorem blanks_add {k : Nat} (h : k < blanks col) : blanks (col + .ofNat k) = blanks col - k := by
  have hmod : ∀ u : UInt16, (u &&& 7).toNat = u.toNat % 8 := fun u => by
    rw [UInt16.toNat_and]
    exact Nat.and_two_pow_sub_one_eq_mod u.toNat 3
  simp only [blanks, Int16.toUInt16_add, Int16.toUInt16_ofNat', hmod] at h ⊢
  rw [UInt16.toNat_add, UInt16.toNat_ofNat']
  omega

/-- The character is a tab that is expanded. -/
def Expands (o : Oflag) (c : UInt8) : Prop := c = 0x09 ∧ o.oxtabs = true ∧ o.extproc = false

/-- A character that the queue has room for comes out as on a queue that never fills. -/
theorem ttyoutput_out {o : Oflag} {k : Nat} (h : (ttyoutput o (some k) c col).out = true) :
    ttyoutput o (some k) c col = ttyoutput o none c col := by
  unfold ttyoutput takes at h ⊢
  split_ifs at h ⊢ <;> simp_all

/-- A character that the queue has no room for: part of a tab, nothing, or the CR of a newline. -/
theorem ttyoutput_short {o : Oflag} (hp : o.opost = true) (hf : o.flusho = false) {k : Nat}
    (h : (ttyoutput o (some k) c col).out = false) :
    (Expands o c ∧ k < blanks col ∧ ttyoutput o (some k) c col = ⟨List.replicate k 0x20, col + .ofNat k, false⟩) ∨
    (¬Expands o c ∧ k = 0 ∧ ttyoutput o (some k) c col = ⟨[], col, false⟩) ∨
    (c = 0x0a ∧ o.onlcr = true ∧ k = 1 ∧ ttyoutput o (some k) c col = ⟨[0x0d], col, false⟩) := by
  by_cases hexp : Expands o c
  · left
    have hcond : c = 0x09 ∧ o.oxtabs = true ∧ ¬o.extproc = true := by simpa [Expands] using hexp
    simp only [ttyoutput, takes, hp, hf, if_pos hcond, not_true_eq_false, if_false, Bool.false_eq_true] at h ⊢
    have hne := of_decide_eq_false h
    have hlt : k < blanks col := by omega
    exact ⟨hexp, hlt, by simp [Nat.min_eq_left (Nat.le_of_lt hlt), Nat.ne_of_lt hlt]⟩
  · right
    have hcond : ¬(c = 0x09 ∧ o.oxtabs = true ∧ ¬o.extproc = true) := by simpa [Expands] using hexp
    simp only [ttyoutput, takes, hp, hf, if_neg hcond, not_true_eq_false, if_false, Bool.false_eq_true] at h ⊢
    by_cases heot : c = CEOT ∧ o.onoeot = true
    · simp [heot] at h
    · by_cases hnl : c = 0x0a ∧ o.onlcr = true
      · simp only [if_neg heot, if_pos hnl] at h ⊢
        rcases Nat.lt_or_ge k 2 with hk | hk
        · rcases Nat.le_one_iff_eq_zero_or_eq_one.1 (Nat.le_of_lt_succ hk) with rfl | rfl
          · exact .inl ⟨hexp, rfl, rfl⟩
          · exact .inr ⟨hnl.1, hnl.2, rfl, rfl⟩
        · simp [Nat.min_eq_right hk] at h
      · simp only [if_neg heot, if_neg hnl] at h ⊢
        rcases Nat.eq_zero_or_pos k with rfl | hk
        · exact .inl ⟨hexp, rfl, rfl⟩
        · simp [Nat.min_eq_right hk] at h

theorem ttyoutput_tab {o : Oflag} (hp : o.opost = true) (hf : o.flusho = false) (h : Expands o c) (col : Int16) :
    ttyoutput o none c col = ⟨List.replicate (blanks col) 0x20, col + .ofNat (blanks col), true⟩ := by
  have hcond : c = 0x09 ∧ o.oxtabs = true ∧ ¬o.extproc = true := by simpa [Expands] using h
  simp [ttyoutput, takes, hp, hf, hcond]

theorem ttyoutput_newline {o : Oflag} (hp : o.opost = true) (hf : o.flusho = false) (h : o.onlcr = true) (col : Int16) :
    ttyoutput o none 0x0a col = ⟨[0x0d, 0x0a], 0, true⟩ := by
  have hadv : advance 0x0a col = 0 := by simp [advance, show CCLASS 0x0a = NEWLINE by decide, NEWLINE, BACKSPACE, CONTROL]
  simp [ttyoutput, takes, hp, hf, h, hadv, CEOT]

/-! ## In order -/

/-- What the write has done so far: the translation of the bytes `cs` that are out, and `k` blanks
of the tab at `cp`. -/
structure Sofar (o : Oflag) (data : List UInt8) (col : Int16) (cs : List UInt8) (k : Nat) (s : Write) : Prop where
  data : data = cs ++ s.buf ++ s.data
  added : s.added = (translate o col cs).1 ++ List.replicate k 0x20
  column : s.column = (translate o col cs).2 + .ofNat k
  begun : s.begun = true ↔ 0 < k
  tab : 0 < k → ∃ c rest, s.buf = c :: rest ∧ Expands o c ∧ k < blanks (translate o col cs).2

/-- A write in order. -/
def Good (o : Setting) (data : List UInt8) (col : Int16) (s : Write) : Prop :=
  match s.place with
  | .done resid => Agrees o data col resid s
  | _ => ∃ cs k, Sofar o.toOflag data col cs k s

/-- Two lists that differ at a place. -/
def Diverge {α : Type} (xs ys : List α) : Prop := ∃ p x y, x ≠ y ∧ p ++ [x] <+: xs ∧ p ++ [y] <+: ys

/-- A write that has put on the queue what no translation has: another character in a place, or
CRs before a newline that is not out. -/
structure Spoilt (o : Oflag) (data : List UInt8) (col : Int16) (cs : List UInt8) (s : Write) : Prop where
  data : data = cs ++ s.buf ++ s.data
  added : Diverge s.added (translate o col cs).1 ∨
    ∃ n rest, s.buf = 0x0a :: rest ∧ o.onlcr = true ∧ s.added = (translate o col cs).1 ++ List.replicate (n + 1) 0x0d

/-- A write out of order. -/
def Bad (o : Setting) (data : List UInt8) (col : Int16) (s : Write) : Prop :=
  match s.place with
  | .done resid => ¬Agrees o data col resid s
  | _ => ∃ cs, Spoilt o.toOflag data col cs s

section Diverge
variable {α : Type} {xs ys zs ws : List α}

theorem Diverge.ne (h : Diverge xs ys) : xs ≠ ys := by
  rintro rfl
  obtain ⟨p, x, y, hne, hx, hy⟩ := h
  have hlen : (p ++ [x]).length = (p ++ [y]).length := by simp
  have heq := List.append_cancel_left ((List.prefix_of_prefix_length_le hx hy (Nat.le_of_eq hlen)).eq_of_length hlen)
  exact hne (List.singleton_inj.1 heq)

theorem Diverge.append (h : Diverge xs ys) (zs ws : List α) : Diverge (xs ++ zs) (ys ++ ws) := by
  obtain ⟨p, x, y, hne, hx, hy⟩ := h
  exact ⟨p, x, y, hne, hx.trans (List.prefix_append _ _), hy.trans (List.prefix_append _ _)⟩

end Diverge

/-! ## A step of the write -/

variable {cs : List UInt8} {k : Nat} {e : Event}

theorem good_at (h : ∀ r, s.place ≠ .done r) : Good o data col s ↔ ∃ cs k, Sofar o.toOflag data col cs k s := by
  unfold Good
  cases hplace : s.place with
  | done r => exact absurd hplace (h r)
  | loop => rfl
  | hunk => rfl
  | chars => rfl
  | ovhiwat => rfl

theorem bad_at (h : ∀ r, s.place ≠ .done r) : Bad o data col s ↔ ∃ cs, Spoilt o.toOflag data col cs s := by
  unfold Bad
  cases hplace : s.place with
  | done r => exact absurd hplace (h r)
  | loop => rfl
  | hunk => rfl
  | chars => rfl
  | ovhiwat => rfl

theorem Sofar.at (h : Sofar o.toOflag data col cs k s) (p : Place) : Sofar o.toOflag data col cs k { s with place := p } :=
  ⟨h.data, h.added, h.column, h.begun, h.tab⟩

theorem Spoilt.at (h : Spoilt o.toOflag data col cs s) (p : Place) : Spoilt o.toOflag data col cs { s with place := p } :=
  ⟨h.data, h.added⟩

theorem Sofar.of_nil (h : Sofar o.toOflag data col cs k s) (hbuf : s.buf = []) : k = 0 := by
  rcases Nat.eq_zero_or_pos k with hk | hk
  · exact hk
  · obtain ⟨c, rest, hcons, -⟩ := h.tab hk
    rw [hbuf] at hcons
    cases hcons

theorem Sofar.of_cons (h : Sofar o.toOflag data col cs k s) (hbuf : s.buf = c :: rest) (hc : ¬Expands o.toOflag c) :
    k = 0 := by
  rcases Nat.eq_zero_or_pos k with hk | hk
  · exact hk
  · obtain ⟨d, rest', hcons, hd, -⟩ := h.tab hk
    rw [hbuf] at hcons
    cases hcons
    exact absurd hd hc

theorem take_consumed {xs ys zs : List UInt8} (h : data = xs ++ ys ++ zs) :
    data.take (data.length - (zs.length + ys.length)) = xs := by
  have hlen : data.length - (zs.length + ys.length) = xs.length := by
    rw [h]
    simp only [List.length_append]
    omega
  rw [hlen, h, List.append_assoc, List.take_left]

theorem Sofar.exit (h : Sofar o.toOflag data col cs k s) : Agrees o data col (s.data.length + s.buf.length) s.exit ↔ k = 0 := by
  have hcs := take_consumed h.data
  constructor
  · intro hagrees
    have hadded := hagrees.added
    rw [hcs, Write.exit, h.added] at hadded
    simpa using congrArg List.length hadded
  · rintro rfl
    constructor
    · rw [hcs, Write.exit, h.added]
      exact List.append_nil _
    · rw [hcs, Write.exit, h.column]
      exact Int16.add_zero _

theorem Spoilt.added_ne (h : Spoilt o.toOflag data col cs s) : s.added ≠ (translate o.toOflag col cs).1 := by
  rcases h.added with hd | ⟨n, rest, -, -, hadded⟩
  · exact hd.ne
  · intro heq
    rw [hadded] at heq
    simpa using congrArg List.length heq

theorem Spoilt.exit (h : Spoilt o.toOflag data col cs s) : Bad o data col s.exit := by
  intro hagrees
  have hadded := hagrees.added
  rw [take_consumed h.data] at hadded
  exact h.added_ne hadded

/-- Where a test only decides between going on and returning. -/
theorem Sofar.moves (h : Sofar o.toOflag data col cs k s) (hchars : s.place ≠ .chars) (hhunk : s.place ≠ .hunk)
    (hrun : (Leaves o s e ∧ ttwrite o s e = s.exit) ∨
      (¬Leaves o s e ∧ ∃ p, (∀ r, p ≠ .done r) ∧ ttwrite o s e = { s with place := p })) :
    (Whole o s e → Good o data col (ttwrite o s e)) ∧ (¬Whole o s e → Bad o data col (ttwrite o s e)) := by
  have hwhole : Whole o s e ↔ (s.begun = true → ¬Leaves o s e) :=
    ⟨fun hw => hw.tab, fun ht => ⟨fun hp => absurd hp hchars, ht, fun _ hp => absurd hp hhunk⟩⟩
  rcases hrun with ⟨hleaves, hrun⟩ | ⟨hstays, p, hp, hrun⟩
  · have hbegun : Whole o s e ↔ k = 0 := by
      rw [hwhole, h.begun]
      constructor
      · intro hw
        exact Nat.eq_zero_of_not_pos fun hk => hw hk hleaves
      · rintro rfl hk
        exact absurd hk (Nat.lt_irrefl 0)
    rw [hrun, hbegun, ← h.exit]
    exact ⟨fun hagrees => hagrees, fun hno => hno⟩
  · rw [hrun]
    have hw : Whole o s e := hwhole.2 fun _ => hstays
    exact ⟨fun _ => (good_at hp).2 ⟨cs, k, h.at p⟩, fun hno => absurd hw hno⟩

theorem loop_run (hc : o.carrier = true) (hplace : s.place = .loop) :
    (Leaves o s e ∧ ttwrite o s e = s.exit) ∨
      (¬Leaves o s e ∧ ∃ p, (∀ r, p ≠ .done r) ∧ ttwrite o s e = { s with place := p }) := by
  simp only [Leaves, ttwrite, hplace, hc, Write.sleep]
  by_cases hb : e.background = true
  · by_cases hs : e.sleepError = true
    · exact .inl ⟨⟨hb, hs⟩, by simp [hb, hs]⟩
    · exact .inr ⟨fun h => hs h.2, .loop, by simp, by simp [hb, hs]⟩
  · exact .inr ⟨fun h => hb h.1, .hunk, by simp, by simp [hb]⟩

theorem ovhiwat_run (hplace : s.place = .ovhiwat) :
    (Leaves o s e ∧ ttwrite o s e = s.exit) ∨
      (¬Leaves o s e ∧ ∃ p, (∀ r, p ≠ .done r) ∧ ttwrite o s e = { s with place := p }) := by
  simp only [Leaves, ttwrite, hplace, Write.sleep]
  by_cases hlow : e.c_cc ≤ o.hiwat
  · exact .inr ⟨fun h => absurd hlow (Int.not_le.2 h.1), .loop, by simp, by simp [hlow]⟩
  · have hhigh := Int.not_le.1 hlow
    by_cases hn : o.ndelay = true
    · exact .inl ⟨⟨hhigh, .inl hn⟩, by simp [hlow, hn]⟩
    · by_cases hs : e.sleepError = true
      · exact .inl ⟨⟨hhigh, .inr hs⟩, by simp [hlow, hn, hs]⟩
      · exact .inr ⟨fun h => h.2.elim hn hs, .loop, by simp, by simp [hlow, hn, hs]⟩

theorem chars_nil (hp : o.opost = true) (hf : o.flusho = false) (col : Int16) :
    (ttyoutput o.toOflag none c col).chars = [] ↔ c = CEOT ∧ o.onoeot = true := by
  by_cases hexp : Expands o.toOflag c
  · have hpos : blanks col ≠ 0 := by
      have hle : (col.toUInt16 &&& 7).toNat ≤ 7 := by
        rw [UInt16.toNat_and]
        exact Nat.and_le_right
      simp only [blanks]
      omega
    have heot : c ≠ CEOT := by rw [hexp.1]; decide
    simp [ttyoutput_tab hp hf hexp, hpos, heot]
  · have hcond : ¬(c = 0x09 ∧ o.oxtabs = true ∧ ¬o.extproc = true) := by simpa [Expands] using hexp
    simp only [ttyoutput, takes, hp, hf, if_neg hcond, not_true_eq_false, if_false, Bool.false_eq_true]
    by_cases heot : c = CEOT ∧ o.onoeot = true
    · simp [heot]
    · simp only [if_neg heot]
      refine iff_of_false ?_ heot
      split_ifs <;> simp_all

theorem translate_nil (hp : o.opost = true) (hf : o.flusho = false) (col : Int16) (lost : List UInt8) :
    (translate o.toOflag col lost).1 = [] ↔ ∀ c ∈ lost, c = CEOT ∧ o.onoeot = true := by
  induction lost generalizing col with
  | nil => simp [translate]
  | cons c lost ih => simp [translate, chars_nil hp hf, ih]

theorem translate_dropped (hp : o.opost = true) (col : Int16) {lost : List UInt8}
    (h : ∀ c ∈ lost, c = CEOT ∧ o.onoeot = true) : translate o.toOflag col lost = ([], col) := by
  induction lost with
  | nil => rfl
  | cons c lost ih =>
    obtain ⟨rfl, hno⟩ := h c List.mem_cons_self
    have hout : ttyoutput o.toOflag none CEOT col = ⟨[], col, true⟩ := by simp [ttyoutput, hp, hno, CEOT]
    rw [translate, hout, ih fun d hd => h d (List.mem_cons_of_mem _ hd)]
    rfl

/-- A fault of `uiomove`: the write returns, and what was moved before it is lost. -/
theorem Sofar.fault (hp : o.opost = true) (hf : o.flusho = false) (h : Sofar o.toOflag data col cs 0 s)
    (hbuf : s.buf = []) (n : Nat) :
    Agrees o data col (s.data.drop n).length (Write.exit { s with data := s.data.drop n }) ↔
      ∀ c ∈ s.data.take n, c = CEOT ∧ o.onoeot = true := by
  have hdata : data = (cs ++ s.data.take n) ++ [] ++ s.data.drop n := by
    rw [List.append_nil, List.append_assoc, List.take_append_drop, h.data, hbuf, List.append_nil]
  have hcs := take_consumed hdata
  rw [List.length_nil, Nat.add_zero] at hcs
  have hadded : s.added = (translate o.toOflag col cs).1 := by rw [h.added]; exact List.append_nil _
  have hcolumn : s.column = (translate o.toOflag col cs).2 := by rw [h.column]; exact Int16.add_zero _
  rw [← translate_nil hp hf (translate o.toOflag col cs).2]
  constructor
  · intro hagrees
    have heq := hagrees.added
    rw [hcs, translate_append, Write.exit, hadded] at heq
    simpa using heq
  · intro hnil
    have hall := translate_dropped hp (translate o.toOflag col cs).2 ((translate_nil hp hf _ _).1 hnil)
    constructor
    · rw [hcs, translate_append, hall, Write.exit, hadded, List.append_nil]
    · rw [hcs, translate_append, hall, Write.exit, hcolumn]

/-- The head of the loop over hunks. -/
theorem Sofar.hunk (hp : o.opost = true) (hf : o.flusho = false) (h : Sofar o.toOflag data col cs k s)
    (hplace : s.place = .hunk) :
    (Whole o s e → Good o data col (ttwrite o s e)) ∧ (¬Whole o s e → Bad o data col (ttwrite o s e)) := by
  have hwhole : Whole o s e ↔ (s.buf = [] → e.c_cc ≤ o.hiwat → ∀ m, e.fault = some m →
      ∀ c ∈ s.data.take (min m OBUFSIZ), c = CEOT ∧ o.onoeot = true) := by
    constructor
    · exact fun hw hbuf hlow m hm => hw.fault m hplace hbuf hlow hm
    · intro hall
      exact ⟨by simp [hplace], fun _ => by simp [Leaves, hplace], fun m _ hbuf hlow hm => hall hbuf hlow m hm⟩
  by_cases hbuf : s.buf = []
  · obtain rfl := h.of_nil hbuf
    by_cases hdata : s.data = []
    · -- all is out
      have hrun : ttwrite o s e = s.exit := by simp [ttwrite, hplace, hdata, hbuf]
      rw [hrun]
      exact ⟨fun _ => h.exit.2 rfl, fun hno => absurd (hwhole.2 (by simp [hdata])) hno⟩
    · by_cases hhigh : o.hiwat < e.c_cc
      · have hrun : ttwrite o s e = { s with place := .ovhiwat } := by simp [ttwrite, hplace, hdata, hf, hhigh]
        rw [hrun]
        exact ⟨fun _ => (good_at (by simp)).2 ⟨cs, 0, h.at .ovhiwat⟩,
          fun hno => absurd (hwhole.2 fun _ hlow => absurd hhigh (Int.not_lt.2 hlow)) hno⟩
      · cases hfault : e.fault with
        | some m =>
          have hrun : ttwrite o s e = Write.exit { s with data := s.data.drop (min m OBUFSIZ) } := by
            simp [ttwrite, hplace, hdata, hf, hhigh, hbuf, hfault]
          have hwhole' : Whole o s e ↔ ∀ c ∈ s.data.take (min m OBUFSIZ), c = CEOT ∧ o.onoeot = true := by
            rw [hwhole, hfault]
            exact ⟨fun hall => hall hbuf (Int.not_lt.1 hhigh) m rfl, fun hall _ _ m' hm => by cases hm; exact hall⟩
          rw [hrun, hwhole', ← h.fault hp hf hbuf]
          have hlen : (s.data.drop (min m OBUFSIZ)).length = (s.data.drop (min m OBUFSIZ)).length + s.buf.length := by
            rw [hbuf, List.length_nil, Nat.add_zero]
          rw [hlen]
          exact ⟨fun hagrees => hagrees, fun hno => hno⟩
        | none =>
          have hrun : ttwrite o s e =
              { s with place := .chars, buf := s.data.take OBUFSIZ, data := s.data.drop OBUFSIZ } := by
            simp [ttwrite, hplace, hdata, hf, hhigh, hbuf, hfault]
          rw [hrun]
          refine ⟨fun _ => (good_at (by simp)).2 ⟨cs, 0, ?_, h.added, h.column, h.begun, by simp⟩,
            fun hno => absurd (hwhole.2 (by simp [hfault])) hno⟩
          rw [h.data, hbuf, List.append_nil, List.append_assoc]
          exact (congrArg (cs ++ ·) (List.take_append_drop OBUFSIZ s.data)).symm
  · have hw : Whole o s e := hwhole.2 fun hnil => absurd hnil hbuf
    have hrun : ∃ p, (∀ r, p ≠ .done r) ∧ ttwrite o s e = { s with place := p } := by
      by_cases hhigh : o.hiwat < e.c_cc
      · exact ⟨.ovhiwat, by simp, by simp [ttwrite, hplace, hbuf, hf, hhigh]⟩
      · exact ⟨.chars, by simp, by simp [ttwrite, hplace, hbuf, hf, hhigh]⟩
    obtain ⟨p, hp', hrun⟩ := hrun
    rw [hrun]
    exact ⟨fun _ => (good_at hp').2 ⟨cs, k, h.at p⟩, fun hno => absurd hw hno⟩

theorem ordinary_not_expands (h : ordinary c = true) : ¬Expands o.toOflag c := by
  rintro ⟨rfl, -⟩
  exact absurd h (by decide)

/-- A bunch of ordinary characters. -/
theorem Sofar.bunch (hp : o.opost = true) (hf : o.flusho = false) {bunch : List UInt8}
    (h : Sofar o.toOflag data col cs 0 s) (hbuf : s.buf = bunch ++ rest) (hall : ∀ c ∈ bunch, ordinary c = true)
    (hplace : s.place = .chars) : Good o data col (putBunch o e bunch rest s) := by
  have hbegun : s.begun = false := by simpa using h.begun
  obtain ⟨n, hn⟩ : ∃ n, takes (some e.space) bunch.length = n := ⟨_, rfl⟩
  have hle : n ≤ bunch.length := by rw [← hn]; exact Nat.min_le_right _ _
  have htaken : translate o.toOflag (translate o.toOflag col cs).2 (bunch.take n) =
      (bunch.take n, (translate o.toOflag col cs).2 + .ofNat n) := by
    rw [translate_ordinary hp hf fun c hc => hall c (List.mem_of_mem_take hc), List.length_take, Nat.min_eq_left hle]
  have hsofar : ∀ p, Sofar o.toOflag data col (cs ++ bunch.take n) 0
      { s with place := p, column := s.column + .ofNat n, added := s.added ++ bunch.take n, buf := bunch.drop n ++ rest } := by
    intro p
    refine ⟨?_, ?_, ?_, by simp [hbegun], by simp⟩
    · rw [h.data, hbuf]
      simp only [List.append_assoc]
      rw [← List.append_assoc (bunch.take n), List.take_append_drop]
    · rw [translate_append, htaken, h.added]
      simp
    · rw [translate_append, htaken, h.column]
      simp
  simp only [putBunch, hn, Write.shortage]
  split_ifs
  · exact (good_at (by simp)).2 ⟨_, 0, hsofar .hunk⟩
  · exact (good_at (by simp)).2 ⟨_, 0, hsofar .loop⟩
  · exact (good_at (by simp)).2 ⟨_, 0, hsofar .hunk⟩
  · exact (good_at (by simp [hplace])).2 ⟨_, 0, hsofar s.place⟩

/-- A character comes out of `ttyoutput`, the blanks before it included, as it should. -/
theorem Sofar.out (hp : o.opost = true) (hf : o.flusho = false) (h : Sofar o.toOflag data col cs k s)
    (hbuf : s.buf = c :: rest) (p : Place) :
    Sofar o.toOflag data col (cs ++ [c]) 0
      { s with
        place := p
        column := (ttyoutput o.toOflag none c s.column).column
        added := s.added ++ (ttyoutput o.toOflag none c s.column).chars
        buf := rest
        begun := false } := by
  have hdata : data = cs ++ [c] ++ rest ++ s.data := by rw [h.data, hbuf]; simp
  rcases Nat.eq_zero_or_pos k with rfl | hk
  · have hcol : s.column = (translate o.toOflag col cs).2 := by rw [h.column]; exact Int16.add_zero _
    refine ⟨hdata, ?_, ?_, by simp, by simp⟩
    · rw [translate_append, translate_singleton, h.added, hcol]
      simp
    · rw [translate_append, translate_singleton, hcol]
      exact (Int16.add_zero _).symm
  · -- the blanks that are missing up to the tab stop
    obtain ⟨d, rest', hcons, hexp, hlt⟩ := h.tab hk
    rw [hbuf] at hcons
    cases hcons
    have hsum : k + (blanks (translate o.toOflag col cs).2 - k) = blanks (translate o.toOflag col cs).2 := by omega
    refine ⟨hdata, ?_, ?_, by simp, by simp⟩
    · rw [translate_append, translate_singleton, ttyoutput_tab hp hf hexp, ttyoutput_tab hp hf hexp, h.added, h.column,
        blanks_add hlt, List.append_assoc, List.replicate_append_replicate, hsum]
      simp
    · rw [translate_append, translate_singleton, ttyoutput_tab hp hf hexp, ttyoutput_tab hp hf hexp, h.column,
        blanks_add hlt, Int16.add_assoc, ← Int16.ofNat_add, hsum]
      exact (Int16.add_zero _).symm

/-- More blanks of a tab come out. -/
theorem Sofar.blanks (h : Sofar o.toOflag data col cs k s) (hbuf : s.buf = c :: rest) (hexp : Expands o.toOflag c)
    {n : Nat} (hn : n < blanks s.column) (p : Place) :
    Sofar o.toOflag data col cs (k + n)
      { s with
        place := p
        column := s.column + .ofNat n
        added := s.added ++ List.replicate n 0x20
        begun := s.begun || !(List.replicate n (0x20 : UInt8)).isEmpty } := by
  have hlt : k + n < Tty.blanks (translate o.toOflag col cs).2 := by
    rcases Nat.eq_zero_or_pos k with rfl | hk
    · rw [h.column] at hn
      simpa [Int16.add_zero] using hn
    · obtain ⟨d, rest', -, -, hlt⟩ := h.tab hk
      rw [h.column, blanks_add hlt] at hn
      omega
  refine ⟨h.data, ?_, ?_, ?_, fun _ => ⟨c, rest, hbuf, hexp, hlt⟩⟩
  · rw [h.added, List.append_assoc, List.replicate_append_replicate]
  · rw [h.column, Int16.add_assoc, ← Int16.ofNat_add]
  · have hbegun := h.begun
    cases n with
    | zero => simpa using hbegun
    | succ n => exact iff_of_true (by simp [List.replicate_succ]) (Nat.succ_pos (k + n))

theorem whole_chars (hplace : s.place = .chars) (hbuf : s.buf = c :: rest) :
    Whole o s e ↔ (c = 0x0a → o.onlcr = true → e.space ≠ 1) := by
  constructor
  · intro hw hc
    exact hw.newline hplace (by rw [hbuf, hc]; rfl)
  · intro hnl
    refine ⟨fun _ hhead => hnl ?_, fun _ => by simp [Leaves, hplace], fun m hp => ?_⟩
    · rw [hbuf] at hhead
      exact Option.some.inj hhead
    · rw [hplace] at hp
      cases hp

theorem newline_split {o : Oflag} (hp : o.opost = true) (hf : o.flusho = false) (h : o.onlcr = true) (col : Int16) :
    ttyoutput o (some 1) 0x0a col = ⟨[0x0d], col, false⟩ := by
  simp [ttyoutput, takes, hp, hf, h, CEOT]

/-- A character for `ttyoutput`. -/
theorem Sofar.special (hp : o.opost = true) (hf : o.flusho = false) (h : Sofar o.toOflag data col cs k s)
    (hplace : s.place = .chars) (hbuf : s.buf = c :: rest) :
    (Whole o s e → Good o data col (putSpecial o e c rest s)) ∧
      (¬Whole o s e → Bad o data col (putSpecial o e c rest s)) := by
  rw [whole_chars hplace hbuf]
  cases hout : (ttyoutput o.toOflag (some e.space) c s.column).out with
  | true =>
    have hgood : Good o data col (putSpecial o e c rest s) := by
      have hnext := h.out hp hf hbuf
      have hrun := ttyoutput_out hout
      have hnone : (ttyoutput o.toOflag none c s.column).out = true := hrun ▸ hout
      simp only [putSpecial, hrun, hnone, not_true_eq_false, if_false]
      split
      · exact (good_at (by simp)).2 ⟨_, 0, hnext .ovhiwat⟩
      · exact (good_at (by simp [hplace])).2 ⟨_, 0, hnext s.place⟩
    refine ⟨fun _ => hgood, fun hno => absurd (fun hc ho hs => ?_) hno⟩
    rw [hc, hs, newline_split hp hf ho] at hout
    cases hout
  | false =>
    simp only [putSpecial, hout, Bool.false_eq_true, not_false_eq_true, if_true, Write.shortage]
    have hp' : ∀ r, (if e.sleepError = true then Place.hunk else Place.loop) ≠ .done r := by
      intro r
      split <;> simp
    generalize (if e.sleepError = true then Place.hunk else Place.loop) = p at hp'
    rcases ttyoutput_short hp hf hout with ⟨hexp, hlt, hrun⟩ | ⟨hexp, hzero, hrun⟩ | ⟨hc, ho, hone, hrun⟩
    · -- part of a tab
      rw [hrun]
      refine ⟨fun _ => (good_at hp').2 ⟨cs, k + e.space, h.blanks hbuf hexp hlt p⟩, fun hno => absurd (fun hc => ?_) hno⟩
      have htab := hexp.1
      rw [hc] at htab
      exact absurd htab (by decide)
    · -- nothing
      rw [hrun]
      refine ⟨fun _ => (good_at hp').2 ⟨cs, k, h.data, ?_, h.column, ?_, h.tab⟩, fun hno => absurd (fun _ _ => ?_) hno⟩
      · rw [← h.added]
        exact List.append_nil _
      · simpa using h.begun
      · rw [hzero]
        exact Nat.zero_ne_one
    · -- the CR without its NL
      rw [hrun]
      refine ⟨fun hw => absurd hone (hw hc ho), fun _ => (bad_at hp').2 ⟨cs, h.data, .inr ⟨0, rest, ?_, ho, ?_⟩⟩⟩
      · rw [← hc]
        exact hbuf
      · have hk : k = 0 := h.of_cons hbuf (by rw [hc]; exact fun hexp => absurd hexp.1 (by decide))
        rw [h.added, hk]
        simp

/-- A step of a write in order. -/
theorem good_step (hp : o.opost = true) (hf : o.flusho = false) (hc : o.carrier = true) (s : Write) (e : Event)
    (h : Good o data col s) :
    (Whole o s e → Good o data col (ttwrite o s e)) ∧ (¬Whole o s e → Bad o data col (ttwrite o s e)) := by
  by_cases hdone : ∃ r, s.place = .done r
  · obtain ⟨r, hr⟩ := hdone
    have hrun : ttwrite o s e = s := by simp [ttwrite, hr]
    rw [hrun]
    refine ⟨fun _ => h, fun hno => absurd ⟨?_, ?_, ?_⟩ hno⟩
    · simp [hr]
    · simp [Leaves, hr]
    · simp [hr]
  · have hat : ∀ r, s.place ≠ .done r := fun r hr => hdone ⟨r, hr⟩
    obtain ⟨cs, k, hso⟩ := (good_at hat).1 h
    cases hplace : s.place with
    | done r => exact absurd hplace (hat r)
    | loop => exact hso.moves (by simp [hplace]) (by simp [hplace]) (loop_run hc hplace)
    | ovhiwat => exact hso.moves (by simp [hplace]) (by simp [hplace]) (ovhiwat_run hplace)
    | hunk => exact hso.hunk hp hf hplace
    | chars =>
      cases hbuf : s.buf with
      | nil =>
        have hrun : ttwrite o s e = { s with place := .hunk } := by simp [ttwrite, hplace, hbuf]
        rw [hrun]
        refine ⟨fun _ => (good_at (by simp)).2 ⟨cs, k, hso.at .hunk⟩, fun hno => absurd ⟨?_, ?_, ?_⟩ hno⟩
        · simp [hbuf]
        · simp [Leaves, hplace]
        · simp [hplace]
      | cons c rest =>
        by_cases hord : ordinary c = true
        · have hrun : ttwrite o s e =
              putBunch o e ((c :: rest).takeWhile ordinary) ((c :: rest).dropWhile ordinary) s := by
            simp [ttwrite, hplace, hbuf, hp, hord]
          obtain rfl := hso.of_cons hbuf (ordinary_not_expands (o := o) hord)
          rw [hrun, whole_chars hplace hbuf]
          refine ⟨fun _ => hso.bunch hp hf ?_ (fun d hd => List.mem_takeWhile_imp hd) hplace,
            fun hno => absurd (fun hnl => ?_) hno⟩
          · rw [hbuf, List.takeWhile_append_dropWhile]
          · rw [hnl] at hord
            exact absurd hord (by decide)
        · have hrun : ttwrite o s e = putSpecial o e c rest s := by simp [ttwrite, hplace, hbuf, hp, hord]
          rw [hrun]
          exact hso.special hp hf hplace hbuf

/-! ## A step out of order -/

theorem diverge_newline (xs : List UInt8) (n : Nat) :
    Diverge (xs ++ List.replicate (n + 1) 0x0d ++ [0x0d, 0x0a]) (xs ++ [0x0d, 0x0a]) := by
  have hcr : List.replicate (n + 1) (0x0d : UInt8) ++ [0x0d, 0x0a] = [0x0d, 0x0d] ++ (List.replicate n 0x0d ++ [0x0a]) := by
    calc List.replicate (n + 1) (0x0d : UInt8) ++ [0x0d, 0x0a]
        = 0x0d :: (List.replicate n 0x0d ++ [0x0d] ++ [0x0a]) := by simp [List.replicate_succ]
      _ = [0x0d, 0x0d] ++ (List.replicate n 0x0d ++ [0x0a]) := by
        rw [← List.replicate_succ', List.replicate_succ]
        rfl
  refine ⟨xs ++ [0x0d], 0x0d, 0x0a, by decide, ?_, by simp⟩
  rw [List.append_assoc, List.append_assoc, hcr]
  exact (List.prefix_append_right_inj xs).2 (List.prefix_append _ _)

theorem Spoilt.bunch {bunch : List UInt8} (h : Spoilt o.toOflag data col cs s)
    (hdiv : Diverge s.added (translate o.toOflag col cs).1) (hbuf : s.buf = bunch ++ rest) (hplace : s.place = .chars) :
    Bad o data col (putBunch o e bunch rest s) := by
  obtain ⟨n, hn⟩ : ∃ n, takes (some e.space) bunch.length = n := ⟨_, rfl⟩
  have hspoilt : ∀ p, Spoilt o.toOflag data col (cs ++ bunch.take n)
      { s with place := p, column := s.column + .ofNat n, added := s.added ++ bunch.take n, buf := bunch.drop n ++ rest } := by
    intro p
    refine ⟨?_, .inl ?_⟩
    · rw [h.data, hbuf]
      simp only [List.append_assoc]
      rw [← List.append_assoc (bunch.take n), List.take_append_drop]
    · rw [translate_append]
      exact hdiv.append _ _
  simp only [putBunch, hn, Write.shortage]
  split_ifs
  · exact (bad_at (by simp)).2 ⟨_, hspoilt .hunk⟩
  · exact (bad_at (by simp)).2 ⟨_, hspoilt .loop⟩
  · exact (bad_at (by simp)).2 ⟨_, hspoilt .hunk⟩
  · exact (bad_at (by simp [hplace])).2 ⟨_, hspoilt s.place⟩

theorem Spoilt.special (hp : o.opost = true) (hf : o.flusho = false) (h : Spoilt o.toOflag data col cs s)
    (hplace : s.place = .chars) (hbuf : s.buf = c :: rest) : Bad o data col (putSpecial o e c rest s) := by
  cases hout : (ttyoutput o.toOflag (some e.space) c s.column).out with
  | true =>
    have hrun := ttyoutput_out hout
    have hnone : (ttyoutput o.toOflag none c s.column).out = true := hrun ▸ hout
    have hspoilt : ∀ p, Spoilt o.toOflag data col (cs ++ [c])
        { s with
          place := p
          column := (ttyoutput o.toOflag none c s.column).column
          added := s.added ++ (ttyoutput o.toOflag none c s.column).chars
          buf := rest
          begun := false } := by
      intro p
      refine ⟨by rw [h.data, hbuf]; simp, .inl ?_⟩
      rw [translate_append, translate_singleton]
      rcases h.added with hd | ⟨n, rest', hcons, ho, hadded⟩
      · exact hd.append _ _
      · rw [hbuf] at hcons
        cases hcons
        rw [hadded, ttyoutput_newline hp hf ho, ttyoutput_newline hp hf ho]
        exact diverge_newline _ n
    simp only [putSpecial, hrun, hnone, not_true_eq_false, if_false]
    split
    · exact (bad_at (by simp)).2 ⟨_, hspoilt .ovhiwat⟩
    · exact (bad_at (by simp [hplace])).2 ⟨_, hspoilt s.place⟩
  | false =>
    simp only [putSpecial, hout, Bool.false_eq_true, not_false_eq_true, if_true, Write.shortage]
    have hp' : ∀ r, (if e.sleepError = true then Place.hunk else Place.loop) ≠ .done r := by
      intro r
      split <;> simp
    refine (bad_at hp').2 ⟨cs, h.data, ?_⟩
    rcases h.added with hd | ⟨n, rest', hcons, ho, hadded⟩
    · left
      simpa using hd.append _ []
    · -- the newline is refused once more, and there may be one more CR
      right
      have hc := hcons
      rw [hbuf] at hc
      cases hc
      rcases ttyoutput_short hp hf hout with ⟨hexp, -⟩ | ⟨-, -, hrun⟩ | ⟨-, -, -, hrun⟩
      · exact absurd hexp.1 (by decide)
      · exact ⟨n, rest, hbuf, ho, by rw [hrun, hadded]; simp⟩
      · refine ⟨n + 1, rest, hbuf, ho, ?_⟩
        rw [hrun, hadded, List.append_assoc, ← List.replicate_succ']

/-- Every step of a write out of order leaves it so. -/
theorem bad_step (hp : o.opost = true) (hf : o.flusho = false) (hc : o.carrier = true) (s : Write) (e : Event)
    (h : Bad o data col s) : Bad o data col (ttwrite o s e) := by
  by_cases hdone : ∃ r, s.place = .done r
  · obtain ⟨r, hr⟩ := hdone
    have hrun : ttwrite o s e = s := by simp [ttwrite, hr]
    rwa [hrun]
  · have hat : ∀ r, s.place ≠ .done r := fun r hr => hdone ⟨r, hr⟩
    obtain ⟨cs, hsp⟩ := (bad_at hat).1 h
    have hmove : ∀ p, (∀ r, p ≠ Place.done r) → Bad o data col { s with place := p } :=
      fun p hp' => (bad_at hp').2 ⟨cs, hsp.at p⟩
    cases hplace : s.place with
    | done r => exact absurd hplace (hat r)
    | loop =>
      rcases loop_run hc hplace with ⟨-, hrun⟩ | ⟨-, p, hp', hrun⟩
      · exact hrun ▸ hsp.exit
      · exact hrun ▸ hmove p hp'
    | ovhiwat =>
      rcases ovhiwat_run hplace with ⟨-, hrun⟩ | ⟨-, p, hp', hrun⟩
      · exact hrun ▸ hsp.exit
      · exact hrun ▸ hmove p hp'
    | hunk =>
      by_cases hbuf : s.buf = []
      · -- no newline waits in `obuf`
        have hdiv : Diverge s.added (translate o.toOflag col cs).1 := by
          rcases hsp.added with hd | ⟨n, rest, hcons, -⟩
          · exact hd
          · rw [hbuf] at hcons
            cases hcons
        have hdata : data = cs ++ s.data := by rw [hsp.data, hbuf, List.append_nil]
        by_cases hnil : s.data = []
        · have hrun : ttwrite o s e = s.exit := by simp [ttwrite, hplace, hnil, hbuf]
          exact hrun ▸ hsp.exit
        · by_cases hhigh : o.hiwat < e.c_cc
          · have hrun : ttwrite o s e = { s with place := .ovhiwat } := by simp [ttwrite, hplace, hnil, hf, hhigh]
            exact hrun ▸ hmove .ovhiwat (by simp)
          · cases hfault : e.fault with
            | some m =>
              have hrun : ttwrite o s e = Write.exit { s with data := s.data.drop (min m OBUFSIZ) } := by
                simp [ttwrite, hplace, hnil, hf, hhigh, hbuf, hfault]
              have hlost : Spoilt o.toOflag data col (cs ++ s.data.take (min m OBUFSIZ))
                  { s with data := s.data.drop (min m OBUFSIZ) } := by
                refine ⟨?_, .inl ?_⟩
                · rw [hdata, hbuf, List.append_nil, List.append_assoc, List.take_append_drop]
                · rw [translate_append]
                  simpa using hdiv.append [] _
              exact hrun ▸ hlost.exit
            | none =>
              have hrun : ttwrite o s e =
                  { s with place := .chars, buf := s.data.take OBUFSIZ, data := s.data.drop OBUFSIZ } := by
                simp [ttwrite, hplace, hnil, hf, hhigh, hbuf, hfault]
              rw [hrun]
              refine (bad_at (by simp)).2 ⟨cs, ?_, .inl hdiv⟩
              rw [hdata, List.append_assoc, List.take_append_drop]
      · by_cases hhigh : o.hiwat < e.c_cc
        · have hrun : ttwrite o s e = { s with place := .ovhiwat } := by simp [ttwrite, hplace, hbuf, hf, hhigh]
          exact hrun ▸ hmove .ovhiwat (by simp)
        · have hrun : ttwrite o s e = { s with place := .chars } := by simp [ttwrite, hplace, hbuf, hf, hhigh]
          exact hrun ▸ hmove .chars (by simp)
    | chars =>
      cases hbuf : s.buf with
      | nil =>
        have hrun : ttwrite o s e = { s with place := .hunk } := by simp [ttwrite, hplace, hbuf]
        exact hrun ▸ hmove .hunk (by simp)
      | cons c rest =>
        by_cases hord : ordinary c = true
        · have hrun : ttwrite o s e =
              putBunch o e ((c :: rest).takeWhile ordinary) ((c :: rest).dropWhile ordinary) s := by
            simp [ttwrite, hplace, hbuf, hp, hord]
          have hdiv : Diverge s.added (translate o.toOflag col cs).1 := by
            rcases hsp.added with hd | ⟨n, rest, hcons, -⟩
            · exact hd
            · rw [hbuf] at hcons
              cases hcons
              exact absurd hord (by decide)
          rw [hrun]
          exact hsp.bunch hdiv (by rw [hbuf, List.takeWhile_append_dropWhile]) hplace
        · have hrun : ttwrite o s e = putSpecial o e c rest s := by simp [ttwrite, hplace, hbuf, hp, hord]
          rw [hrun]
          exact hsp.special hp hf hplace hbuf

/-! ## Whole writes -/

theorem good_writeOf (o : Setting) (data : List UInt8) (col : Int16) : Good o data col (writeOf data col) :=
  (good_at (by simp [writeOf])).2 ⟨[], 0, rfl, rfl, (Int16.add_zero col).symm, by simp [writeOf], by simp⟩

/-- A write with carrier that returns has put the translation of exactly the bytes it consumed on
the queue, and left `t_column` behind them, if and only if each of its steps meets the condition. -/
theorem ttwrite_iff (o : Setting) (hp : o.opost = true) (hf : o.flusho = false) (hc : o.carrier = true)
    (data : List UInt8) (col : Int16) (es : List Event) (resid : Nat)
    (h : (final (ttwrite o) (writeOf data col) es).place = .done resid) :
    Agrees o data col resid (final (ttwrite o) (writeOf data col) es) ↔
      Along (ttwrite o) (Whole o) (writeOf data col) es := by
  have hends := final_good_or_bad (fun s e hs => (good_step hp hf hc s e hs).1) (fun s e hs => (good_step hp hf hc s e hs).2)
    (bad_step hp hf hc) es (good_writeOf o data col)
  simp only [Good, Bad, h] at hends
  rcases hends with ⟨halong, hgood⟩ | ⟨hno, hbad⟩
  · exact iff_of_true hgood halong
  · exact iff_of_false hbad hno

/-- Newlines become CR NL and tabs are expanded. -/
def cooked : Setting where
  opost := true
  oxtabs := true
  onlcr := true
  onoeot := false
  extproc := false
  flusho := false
  carrier := true
  isopen := true
  ndelay := false
  hiwat := 100

/-- A test that finds the queue empty but for that much space left. -/
def found (space : Nat) : Event := ⟨0, space, false, false, none⟩

/-- The tab of a write finds room for three blanks, and for the rest after a sleep. -/
def shortOfTab : List Event := [found 0, found 0, found 3, found 0, found 0, found 10, found 10, found 0, found 0]

theorem ttwrite_tab : Along (ttwrite cooked) (Whole cooked) (writeOf [0x09, 0x61] 0) shortOfTab :=
  (ttwrite_iff cooked rfl rfl rfl [0x09, 0x61] 0 shortOfTab 0 (by decide)).1 ⟨by decide, by decide⟩

/-- A newline of which the queue takes the CR, and CR and NL after a sleep. -/
def shortOfNewline : List Event := [found 0, found 0, found 1, found 0, found 0, found 2, found 0, found 0]

/-- The write consumes its one byte, a newline, and puts CR CR NL on the queue. -/
theorem ttwrite_newline :
    (final (ttwrite cooked) (writeOf [0x0a] 0) shortOfNewline).place = .done 0 ∧
      (final (ttwrite cooked) (writeOf [0x0a] 0) shortOfNewline).added = [0x0d, 0x0d, 0x0a] ∧
      ¬Agrees cooked [0x0a] 0 0 (final (ttwrite cooked) (writeOf [0x0a] 0) shortOfNewline) := by
  have hadded : (final (ttwrite cooked) (writeOf [0x0a] 0) shortOfNewline).added = [0x0d, 0x0d, 0x0a] := by decide
  refine ⟨by decide, hadded, fun h => ?_⟩
  have heq := h.added
  rw [hadded] at heq
  exact absurd heq (by decide)

end BsdKernel.Tty
