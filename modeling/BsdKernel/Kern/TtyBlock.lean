import BsdKernel.Kern.Tty
import BsdKernel.Lib.Alternate
import BsdKernel.Lib.Trace
import Mathlib.Tactic.Common
/-!
# Input flow control of the terminals

`ttyblock` of `kern/tty.c` queues VSTOP when the input queues fill up, and
`ttread` queues VSTART when a reader has emptied them. The model has the input
side of the line discipline: `ttyinput` with all it does to `t_rawq` and
`t_canq`, `ttypend`, `ttyflush`, and `ttread` in the sections between which an
interrupt can come in. Echo, the output queue's contents and statistics are
left out: none of them reaches an input queue or TS_TBLOCK.

`input_flow_iff` says in which runs the characters sent alternate, beginning
with VSTOP, are sent at the right fill, and agree with TS_TBLOCK.
-/

namespace BsdKernel.Tty

open BsdKernel.Lib

/-! ## State -/

/-- The settings of a terminal that its input side reads. -/
structure Termios where
  -- `c_iflag`
  ignbrk : Bool
  brkint : Bool
  ignpar : Bool
  parmrk : Bool
  inpck : Bool
  istrip : Bool
  inlcr : Bool
  igncr : Bool
  icrnl : Bool
  ixon : Bool
  ixoff : Bool
  imaxbel : Bool
  -- `c_lflag`
  icanon : Bool
  isig : Bool
  iexten : Bool
  extproc : Bool
  altwerase : Bool
  noflsh : Bool
  c_cc : Cc → UInt8

/-- The input side of a `struct tty`. `sent` records each character that `ttyblock`
and `ttread` put on `t_outq`, with what the input queues held at that moment. -/
structure State where
  rawq : List UInt32
  canq : List UInt32
  pendin : Bool
  tblock : Bool
  lnch : Bool
  typen : Bool
  sent : List (UInt8 × Nat)

/-- What `t_rawq` and `t_canq` together hold. -/
def State.total (tp : State) : Nat := tp.rawq.length + tp.canq.length

/-- A flow control character goes to the output queue, which has room for it. -/
def State.send (tp : State) (c : UInt8) : State := { tp with sent := tp.sent ++ [(c, tp.total)] }

variable (tm : Termios)

/-! ## Queues -/

/-- `ttyflush`. Of TS_LOCAL, the flags TS_LNCH and TS_TYPEN are read on input. -/
def ttyflush (fread : Bool) (tp : State) : State :=
  if fread then { tp with rawq := [], canq := [], lnch := false, typen := false } else tp

/-- `ttyblock`, with the condition as the compiler reads it: `&&` binds before `||`. -/
def ttyblock (tp : State) : State :=
  let total := tp.total
  let tp := if TTYHOG < tp.rawq.length then { ttyflush true tp with tblock := false } else tp
  if TTYHOG / 2 ≤ total ∧ ¬tp.tblock ∧ ¬tm.icanon ∨ 0 < tp.canq.length ∧ tm.c_cc .VSTOP ≠ POSIX_VDISABLE then
    { tp.send (tm.c_cc .VSTOP) with tblock := true }
  else tp

/-- `putc` on `t_rawq`, where there may be no room. -/
def putc (room : Bool) (c : UInt32) (tp : State) : State :=
  if room then { tp with rawq := tp.rawq ++ [c] } else tp

def blank (c : UInt32) : Bool := c == 0x20 || c == 0x09

/-- Word erase on the queue from its end: blanks, the last character of the word,
and the characters before it up to a blank or, with ALTWERASE, to another kind. -/
def werase (alt : Bool) (q : List UInt32) : List UInt32 :=
  match q.dropWhile blank with
  | [] => []
  | _ :: q =>
    match q with
    | [] => []
    | c :: q => if blank c then c :: q else q.dropWhile fun d => !blank d && (!alt || ISALPHA d == ISALPHA c)

/-- `TTBREAKC`: the character ends a line. -/
def ttbreakc (c : UInt32) : Bool :=
  c == 0x0a || (c == (tm.c_cc .VEOF).toUInt32 || c == (tm.c_cc .VEOL).toUInt32 || c == (tm.c_cc .VEOL2).toUInt32) &&
    c != POSIX_VDISABLE.toUInt32

/-! ## Input of a character -/

/-- What the test for break, parity and framing makes of a character. -/
inductive Exceptional where
  | endcase
  | parmrk (c : UInt32)
  | char (c : UInt32)

/-- The exceptional conditions at the top of `ttyinput`. -/
def exceptional (c : UInt32) : Exceptional :=
  let err := c &&& TTY_ERRORMASK
  if err = 0 then .char c
  else
    let c := CLR c TTY_ERRORMASK
    if ISSET err TTY_FE ∧ c = 0 then
      if tm.ignbrk then .endcase
      else if tm.brkint ∧ tm.isig ∧ tm.c_cc .VINTR ≠ POSIX_VDISABLE then .char (tm.c_cc .VINTR).toUInt32
      else if tm.parmrk then .parmrk c
      else .char c
    else if ISSET err TTY_PE ∧ tm.inpck ∨ ISSET err TTY_FE then
      if tm.ignpar then .endcase
      else if tm.parmrk then .parmrk c
      else .char 0
    else .char c

/-- The end of `ttyinput`: the check for overflow, and the character is queued. -/
def enqueue (room : Bool) (c : UInt32) (tp : State) : State :=
  if TTYHOG ≤ tp.total then
    if tm.imaxbel then tp else ttyflush true tp
  else if ¬room then tp
  else if tm.icanon ∧ ttbreakc tm c then { tp with canq := tp.canq ++ (tp.rawq ++ [c]), rawq := [] }
  else putc room c tp

/-- Canonical mode processing. VKILL rubs its characters out one by one or flushes them:
either way the queue is empty after it. VREPRINT and VSTATUS only write output. -/
def canonical (room : Bool) (c : UInt32) (tp : State) : State :=
  if tm.extproc ∨ ¬tm.icanon then enqueue tm room c tp
  else if CCEQ (tm.c_cc .VERASE) c then { tp with rawq := tp.rawq.dropLast }
  else if CCEQ (tm.c_cc .VKILL) c then { tp with rawq := [], lnch := false, typen := false }
  else if CCEQ (tm.c_cc .VWERASE) c then { tp with rawq := (werase tm.altwerase tp.rawq.reverse).reverse }
  else if CCEQ (tm.c_cc .VREPRINT) c ∨ CCEQ (tm.c_cc .VSTATUS) c then tp
  else enqueue tm room c tp

/-- IGNCR, ICRNL and INLCR; `none` where the character is ignored. -/
def mapcr (c : UInt32) : Option UInt32 :=
  if c = 0x0d then
    if tm.igncr then none else if tm.icrnl then some 0x0a else some c
  else if c = 0x0a ∧ tm.inlcr then some 0x0d
  else some c

/-- The characters that EXTPROC leaves to the other side: IEXTEN, signals, start and stop. -/
def special (room : Bool) (c : UInt32) (tp : State) : State :=
  if tm.iexten ∧ CCEQ (tm.c_cc .VLNEXT) c then { tp with lnch := true }
  else if tm.iexten ∧ CCEQ (tm.c_cc .VDISCARD) c then ttyflush false tp
  else if tm.isig ∧ (CCEQ (tm.c_cc .VINTR) c ∨ CCEQ (tm.c_cc .VQUIT) c ∨ CCEQ (tm.c_cc .VSUSP) c) then
    ttyflush (!tm.noflsh) tp
  else if tm.ixon ∧ (CCEQ (tm.c_cc .VSTOP) c ∨ CCEQ (tm.c_cc .VSTART) c) then tp
  else
    match mapcr tm c with
    | none => tp
    | some c => canonical tm room c tp

/-- `ttyinput` behind `ttyblock`. -/
def process (room : Bool) (c : UInt32) (tp : State) : State :=
  let c := if ¬tp.typen ∧ tm.istrip then CLR c 0x80 else c
  if tm.extproc then canonical tm room c tp
  else if tp.lnch then special tm room (SET c TTY_QUOTE) { tp with lnch := false }
  else special tm room c tp

/-- `ttyinput` of a character, with no input pending. -/
def ttyinputChar (room : Nat → Bool) (c : UInt32) (tp : State) : State :=
  match exceptional tm c with
  | .endcase => tp
  | .parmrk c => putc (room 2) (SET c TTY_QUOTE) (putc (room 1) (SET 0 TTY_QUOTE) (putc (room 0) (SET 0xff TTY_QUOTE) tp))
  | .char c => process tm (room 0) c (if tm.ixoff then ttyblock tm tp else tp)

/-- The loop of `ttypend`: each character of the old queue goes through `ttyinput` again. -/
def retype (room : Nat → Nat → Bool) : Nat → List UInt32 → State → State
  | _, [], tp => tp
  | k, c :: cs, tp => retype room (k + 1) cs (ttyinputChar tm (room k) c tp)

def ttypend (room : Nat → Nat → Bool) (tp : State) : State :=
  { retype tm room 0 tp.rawq { tp with pendin := false, typen := true, rawq := [] } with typen := false }

/-- `ttyinput`. `room` says which `putc` finds room on `t_rawq`: `room 0` for those of
the character, `room (k + 1)` for those of the pending character `k`. -/
def ttyinput (room : Nat → Nat → Bool) (c : UInt32) (tp : State) : State :=
  ttyinputChar tm (room 0) c (if tp.pendin then ttypend tm (fun k => room (k + 1)) tp else tp)

/-! ## Reading

`ttread` is a chain of sections. Each runs to its end before an interrupt
comes in, and in between anything may happen to the terminal. -/

/-- Where a process is in `ttread`. -/
inductive Pc where
  /-- not in `ttread` -/
  | out
  /-- at `loop` -/
  | loop (resid : Nat)
  /-- about to look at the queue -/
  | look (resid : Nat)
  /-- in the loop that gives characters to the user -/
  | getc (first : Bool) (resid : Nat)
  /-- about to look whether to unblock -/
  | unblock
  deriving DecidableEq

/-- What a section of `ttread` finds outside the terminal's queues. -/
structure World where
  resid : Nat
  background : Bool
  ignored : Bool
  carrier : Bool
  isopen : Bool
  ndelay : Bool
  sleepError : Bool
  ureadcError : Bool
  room : Nat → Nat → Bool

/-- The queue that is read. -/
def State.qp (tp : State) : List UInt32 := if tm.icanon then tp.canq else tp.rawq

def State.setQp (tp : State) (q : List UInt32) : State := if tm.icanon then { tp with canq := q } else { tp with rawq := q }

/-- After a sleep: back to the top of `ttread`, or out of it with the sleep's error. -/
def slept (w : World) (resid : Nat) (onError : Pc) : Pc := if w.sleepError then onError else .loop resid

/-- What the loop does with a character it took. -/
def give (w : World) (c : UInt32) (first : Bool) (resid : Nat) : Pc :=
  if CCEQ (tm.c_cc .VDSUSP) c ∧ tm.isig then
    if first then slept w resid .unblock else .unblock
  else if CCEQ (tm.c_cc .VEOF) c ∧ tm.icanon then .unblock
  else if w.ureadcError then .unblock
  else if resid - 1 = 0 then .unblock
  else if tm.icanon ∧ ttbreakc tm c then .unblock
  else .getc false (resid - 1)

/-- The end of `ttread`. -/
def unblock (tp : State) : State :=
  if tp.tblock ∧ tp.rawq.length < TTYHOG / 5 ∧ tm.c_cc .VSTART ≠ POSIX_VDISABLE then
    { tp.send (tm.c_cc .VSTART) with tblock := false }
  else tp

/-- The next section of `ttread`. -/
def ttread (w : World) (tp : State) : Pc → State × Pc
  | .out => (tp, .loop w.resid)
  | .loop resid =>
    let tp := if tp.pendin then ttypend tm w.room tp else tp
    if w.background then (tp, if w.ignored then .out else slept w resid .out) else (tp, .look resid)
  | .look resid =>
    if tp.qp tm = [] then
      if ¬w.carrier ∧ w.isopen then (tp, .out)
      else if w.ndelay then (tp, .out)
      else (tp, slept w resid .out)
    else (tp, .getc true resid)
  | .getc first resid =>
    match tp.qp tm with
    | [] => (tp, .unblock)
    | c :: q => (tp.setQp tm q, give tm w c first resid)
  | .unblock => (unblock tm tp, .out)

/-! ## Runs -/

/-- A terminal and where each process that reads it is. -/
structure Sys where
  tp : State
  pc : Nat → Pc

/-- What can happen next. -/
inductive Action where
  | ttyinput (c : UInt32) (room : Nat → Nat → Bool)
  | ttyflush (fread : Bool)
  | ttread (p : Nat) (w : World)

def step (s : Sys) : Action → Sys
  | .ttyinput c room => { s with tp := ttyinput tm room c s.tp }
  | .ttyflush fread => { s with tp := ttyflush fread s.tp }
  | .ttread p w => { tp := (ttread tm w s.tp (s.pc p)).1, pc := Function.update s.pc p (ttread tm w s.tp (s.pc p)).2 }

/-- A terminal at its open: nothing is queued, nothing was sent and nobody reads. -/
structure Opened (s : Sys) : Prop where
  rawq : s.tp.rawq = []
  canq : s.tp.canq = []
  tblock : s.tp.tblock = false
  sent : s.tp.sent = []
  pc : ∀ p, s.pc p = .out

/-! ## Flow control -/

/-- The characters sent alternate from VSTOP on, a VSTOP goes out only when the queues are half
full, and TS_TBLOCK says that a VSTOP was the last. -/
structure FlowOk (tp : State) : Prop where
  alternate : Alternates (tm.c_cc .VSTOP) (tm.c_cc .VSTART) (tp.sent.map Prod.fst)
  full : ∀ e ∈ tp.sent, e.1 = tm.c_cc .VSTOP → TTYHOG / 2 ≤ e.2
  tblock : tp.tblock = true ↔ (tp.sent.map Prod.fst).getLast? = some (tm.c_cc .VSTOP)

/-- `ttyblock` keeps to this in a state: an overflow of `t_rawq` finds canonical mode and input not
blocked, and otherwise a line that waits on `t_canq` finds input not blocked and the queues half full. -/
def BlockOk (tp : State) : Prop :=
  if TTYHOG < tp.rawq.length then tm.icanon = true ∧ tp.tblock = false
  else tp.canq ≠ [] → tp.tblock = false ∧ TTYHOG / 2 ≤ tp.total

/-- The condition on a step: a character that comes to `ttyblock` finds it in such a state. -/
def Ok (s : Sys) : Action → Prop
  | .ttyinput c _ => ∀ d, exceptional tm c = .char d → BlockOk tm s.tp
  | _ => True

variable {tm} {tp tp' : State}

theorem FlowOk.congr (h : FlowOk tm tp) (hs : tp'.sent = tp.sent) (hb : tp'.tblock = tp.tblock) : FlowOk tm tp' :=
  ⟨hs ▸ h.alternate, hs ▸ h.full, hs ▸ hb ▸ h.tblock⟩

theorem flowOk_congr (hs : tp'.sent = tp.sent) (hb : tp'.tblock = tp.tblock) : FlowOk tm tp' ↔ FlowOk tm tp :=
  ⟨fun h => h.congr hs.symm hb.symm, fun h => h.congr hs hb⟩

/-- A VSTOP is in order where input is not blocked and the queues are half full. -/
theorem flowOk_stop (hne : tm.c_cc .VSTOP ≠ tm.c_cc .VSTART) (h : FlowOk tm tp) :
    FlowOk tm { tp.send (tm.c_cc .VSTOP) with tblock := true } ↔ tp.tblock = false ∧ TTYHOG / 2 ≤ tp.total := by
  have hlast : tp.tblock = false ↔ ¬(tp.sent.map Prod.fst).getLast? = some (tm.c_cc .VSTOP) := by
    rw [← h.tblock, Bool.not_eq_true]
  constructor
  · intro h'
    have halt := h'.alternate
    have hfull := h'.full (tm.c_cc .VSTOP, tp.total) (by simp [State.send]) rfl
    simp only [State.send, List.map_append, List.map_cons, List.map_nil, alternates_concat hne] at halt
    refine ⟨hlast.2 fun hl => ?_, hfull⟩
    rw [if_pos hl] at halt
    exact hne halt.2
  · rintro ⟨hb, htotal⟩
    refine ⟨?_, ?_, ?_⟩
    · simp only [State.send, List.map_append, List.map_cons, List.map_nil, alternates_concat hne]
      exact ⟨h.alternate, (if_neg (hlast.1 hb)).symm⟩
    · intro e he hstop
      rcases List.mem_append.1 he with he | he
      · exact h.full e he hstop
      · rw [List.mem_singleton.1 he]
        exact htotal
    · simp [State.send]

theorem FlowOk.start (hne : tm.c_cc .VSTOP ≠ tm.c_cc .VSTART) (h : FlowOk tm tp) (hb : tp.tblock = true) :
    FlowOk tm { tp.send (tm.c_cc .VSTART) with tblock := false } := by
  refine ⟨?_, ?_, ?_⟩
  · simp only [State.send, List.map_append, List.map_cons, List.map_nil, alternates_concat hne]
    exact ⟨h.alternate, (if_pos (h.tblock.1 hb)).symm⟩
  · intro e he hstop
    rcases List.mem_append.1 he with he | he
    · exact h.full e he hstop
    · rw [List.mem_singleton.1 he] at hstop
      exact absurd hstop.symm hne
  · simp [State.send, hne.symm]

theorem flowOk_clear (h : FlowOk tm tp) (hs : tp'.sent = tp.sent) (hb : tp'.tblock = false) :
    FlowOk tm tp' ↔ tp.tblock = false := by
  constructor
  · intro h'
    rw [Bool.eq_false_iff]
    intro hblock
    have hset := h'.tblock.2 (hs ▸ h.tblock.1 hblock)
    rw [hb] at hset
    cases hset
  · intro hblock
    exact h.congr hs (hb.trans hblock.symm)

/-- What `ttyblock` does is in order exactly in the states of `BlockOk`. -/
theorem ttyblock_flow (hne : tm.c_cc .VSTOP ≠ tm.c_cc .VSTART) (hstop : tm.c_cc .VSTOP ≠ POSIX_VDISABLE)
    (h : FlowOk tm tp) : FlowOk tm (ttyblock tm tp) ↔ BlockOk tm tp := by
  by_cases hraw : TTYHOG < tp.rawq.length
  · have htotal : TTYHOG / 2 ≤ tp.total := by
      simp only [State.total, TTYHOG] at hraw ⊢
      omega
    simp only [BlockOk, if_pos hraw]
    by_cases hcanon : tm.icanon = true
    · -- the flush leaves no line, so no VSTOP follows it
      have hrun : ttyblock tm tp = { ttyflush true tp with tblock := false } := by
        simp [ttyblock, hraw, hcanon, ttyflush]
      rw [hrun]
      exact (flowOk_clear h (by simp [ttyflush]) rfl).trans (and_iff_right hcanon).symm
    · -- the VSTOP goes out on account of what was flushed
      have hrun : ttyblock tm tp =
          { State.send { ttyflush true tp with tblock := false } (tm.c_cc .VSTOP) with tblock := true } := by
        simp [ttyblock, hraw, hcanon, htotal]
      refine iff_of_false (fun hflow => ?_) (fun hok => hcanon hok.1)
      have hfull := hflow.full (tm.c_cc .VSTOP, 0) (by simp [hrun, State.send, ttyflush, State.total]) rfl
      exact absurd hfull (show ¬TTYHOG / 2 ≤ 0 by decide)
  · simp only [BlockOk, if_neg hraw]
    by_cases hcan : tp.canq = []
    · simp only [hcan, ne_eq, not_true_eq_false, false_implies, iff_true]
      by_cases hsend : TTYHOG / 2 ≤ tp.total ∧ tp.tblock = false ∧ tm.icanon = false
      · have hrun : ttyblock tm tp = { tp.send (tm.c_cc .VSTOP) with tblock := true } := by
          simp [ttyblock, hraw, hsend]
        rw [hrun, flowOk_stop hne h]
        exact ⟨hsend.2.1, hsend.1⟩
      · have hrun : ttyblock tm tp = tp := by
          simp [ttyblock, hraw, hcan]
          tauto
        rwa [hrun]
    · have hrun : ttyblock tm tp = { tp.send (tm.c_cc .VSTOP) with tblock := true } := by
        simp [ttyblock, hraw, hcan, hstop, List.length_pos_iff]
      rw [hrun, flowOk_stop hne h]
      exact ⟨fun hok _ => hok, fun hok => hok hcan⟩

/-! ## What leaves flow control alone -/

/-- A step that sends nothing and keeps TS_TBLOCK and PENDIN. -/
structure Keeps (tp tp' : State) : Prop where
  sent : tp'.sent = tp.sent
  tblock : tp'.tblock = tp.tblock
  pendin : tp'.pendin = tp.pendin

@[refl] theorem Keeps.refl (tp : State) : Keeps tp tp := ⟨rfl, rfl, rfl⟩

theorem Keeps.trans {tp'' : State} (h : Keeps tp tp') (h' : Keeps tp' tp'') : Keeps tp tp'' :=
  ⟨h'.sent.trans h.sent, h'.tblock.trans h.tblock, h'.pendin.trans h.pendin⟩

theorem Keeps.flow (h : Keeps tp tp') : FlowOk tm tp' ↔ FlowOk tm tp := flowOk_congr h.sent h.tblock

theorem ttyflush_keeps (fread : Bool) (tp : State) : Keeps tp (ttyflush fread tp) := by
  cases fread <;> exact ⟨rfl, rfl, rfl⟩

theorem putc_keeps (room : Bool) (c : UInt32) (tp : State) : Keeps tp (putc room c tp) := by
  cases room <;> exact ⟨rfl, rfl, rfl⟩

theorem enqueue_keeps (room : Bool) (c : UInt32) (tp : State) : Keeps tp (enqueue tm room c tp) := by
  unfold enqueue
  split_ifs
  · rfl
  · exact ttyflush_keeps true tp
  · exact ⟨rfl, rfl, rfl⟩
  · exact putc_keeps room c tp
  · rfl

theorem canonical_keeps (room : Bool) (c : UInt32) (tp : State) : Keeps tp (canonical tm room c tp) := by
  unfold canonical
  split_ifs
  · exact enqueue_keeps room c tp
  · exact ⟨rfl, rfl, rfl⟩
  · exact ⟨rfl, rfl, rfl⟩
  · exact ⟨rfl, rfl, rfl⟩
  · rfl
  · exact enqueue_keeps room c tp

theorem special_keeps (room : Bool) (c : UInt32) (tp : State) : Keeps tp (special tm room c tp) := by
  unfold special
  split_ifs
  · exact ⟨rfl, rfl, rfl⟩
  · exact ttyflush_keeps false tp
  · exact ttyflush_keeps _ tp
  · rfl
  · cases mapcr tm c with
    | none => rfl
    | some d => exact canonical_keeps room d tp

theorem process_keeps (room : Bool) (c : UInt32) (tp : State) : Keeps tp (process tm room c tp) := by
  simp only [process]
  generalize (if ¬tp.typen ∧ tm.istrip then CLR c 0x80 else c) = d
  split_ifs
  · exact canonical_keeps room d tp
  · have hkeeps : Keeps { tp with lnch := false } (special tm room (SET d TTY_QUOTE) { tp with lnch := false }) :=
      special_keeps room (SET d TTY_QUOTE) _
    exact ⟨hkeeps.sent, hkeeps.tblock, hkeeps.pendin⟩
  · exact special_keeps room d tp

theorem ttyblock_pendin (tp : State) : (ttyblock tm tp).pendin = tp.pendin := by
  simp only [ttyblock, ttyflush, State.send]
  split_ifs <;> rfl

theorem ttyinputChar_pendin (room : Nat → Bool) (c : UInt32) (tp : State) :
    (ttyinputChar tm room c tp).pendin = tp.pendin := by
  unfold ttyinputChar
  cases exceptional tm c with
  | endcase => rfl
  | parmrk d =>
    exact (((putc_keeps (room 0) _ tp).trans (putc_keeps (room 1) _ _)).trans (putc_keeps (room 2) _ _)).pendin
  | char d =>
    refine (process_keeps (room 0) d _).pendin.trans ?_
    split
    · exact ttyblock_pendin tp
    · rfl

/-- A character keeps flow control in order exactly if it does not come to `ttyblock`, or comes
to it in a state of `BlockOk`. -/
theorem ttyinputChar_flow (hixoff : tm.ixoff = true) (hne : tm.c_cc .VSTOP ≠ tm.c_cc .VSTART)
    (hstop : tm.c_cc .VSTOP ≠ POSIX_VDISABLE) (h : FlowOk tm tp) (room : Nat → Bool) (c : UInt32) :
    FlowOk tm (ttyinputChar tm room c tp) ↔ ∀ d, exceptional tm c = .char d → BlockOk tm tp := by
  unfold ttyinputChar
  cases exceptional tm c with
  | endcase => exact iff_of_true h (by simp)
  | parmrk d =>
    have hkeeps := ((putc_keeps (room 0) (SET 0xff TTY_QUOTE) tp).trans (putc_keeps (room 1) (SET 0 TTY_QUOTE) _)).trans
      (putc_keeps (room 2) (SET d TTY_QUOTE) _)
    exact iff_of_true (hkeeps.flow.2 h) (by simp)
  | char d =>
    simp only [if_pos hixoff, Exceptional.char.injEq, forall_eq']
    rw [(process_keeps (room 0) d _).flow]
    exact ttyblock_flow hne hstop h

/-! ## Runs -/

/-- What every state of a run has while flow control is in order: a terminal whose input
is still pending has nothing to retype. -/
structure Inv (tm : Termios) (s : Sys) : Prop where
  flow : FlowOk tm s.tp
  pendin : s.tp.pendin = true → s.tp.rawq = []

theorem ttypend_nil (room : Nat → Nat → Bool) (h : tp.rawq = []) :
    ttypend tm room tp = { tp with pendin := false, typen := false } := by
  simp [ttypend, h, retype]

theorem Opened.inv {s : Sys} (h : Opened s) : Inv tm s where
  flow := ⟨by simp [h.sent, Alternates], by simp [h.sent], by simp [h.sent, h.tblock]⟩
  pendin := fun _ => h.rawq

theorem pending (tm : Termios) (room : Nat → Nat → Bool) (hp : tp.pendin = true → tp.rawq = []) :
    ∃ tp', (if tp.pendin then ttypend tm room tp else tp) = tp' ∧ tp'.pendin = false ∧ tp'.rawq = tp.rawq ∧
      tp'.canq = tp.canq ∧ tp'.tblock = tp.tblock ∧ tp'.sent = tp.sent := by
  by_cases hpend : tp.pendin = true
  · rw [if_pos hpend, ttypend_nil room (hp hpend)]
    exact ⟨_, rfl, rfl, rfl, rfl, rfl, rfl⟩
  · rw [if_neg hpend]
    exact ⟨tp, rfl, by simpa using hpend, rfl, rfl, rfl, rfl⟩

theorem ttyinput_flow (hixoff : tm.ixoff = true) (hne : tm.c_cc .VSTOP ≠ tm.c_cc .VSTART)
    (hstop : tm.c_cc .VSTOP ≠ POSIX_VDISABLE) {s : Sys} (h : Inv tm s) (c : UInt32) (room : Nat → Nat → Bool) :
    FlowOk tm (ttyinput tm room c s.tp) ↔ Ok tm s (.ttyinput c room) := by
  obtain ⟨tp', hrun, -, hraw, hcan, hblock, hsent⟩ := pending tm (fun k => room (k + 1)) h.pendin
  have hok : BlockOk tm tp' ↔ BlockOk tm s.tp := by simp only [BlockOk, State.total, hraw, hcan, hblock]
  rw [ttyinput, hrun, ttyinputChar_flow hixoff hne hstop (h.flow.congr hsent hblock)]
  exact forall_congr' fun d => imp_congr_right fun _ => hok

theorem ttyinput_pendin {s : Sys} (h : Inv tm s) (c : UInt32) (room : Nat → Nat → Bool) :
    (ttyinput tm room c s.tp).pendin = false := by
  obtain ⟨tp', hrun, hpend, -⟩ := pending tm (fun k => room (k + 1)) h.pendin
  rw [ttyinput, hrun, ttyinputChar_pendin, hpend]

/-- Every section of `ttread` keeps flow control in order. -/
theorem ttread_inv (hne : tm.c_cc .VSTOP ≠ tm.c_cc .VSTART) (w : World) (pc : Pc) (h : FlowOk tm tp)
    (hp : tp.pendin = true → tp.rawq = []) :
    FlowOk tm (ttread tm w tp pc).1 ∧ ((ttread tm w tp pc).1.pendin = true → (ttread tm w tp pc).1.rawq = []) := by
  cases pc with
  | out => exact ⟨h, hp⟩
  | loop resid =>
    obtain ⟨tp', hrun, hpend, hraw, -, hblock, hsent⟩ := pending tm w.room hp
    have hboth : FlowOk tm tp' ∧ (tp'.pendin = true → tp'.rawq = []) :=
      ⟨h.congr hsent hblock, fun hset => absurd (hpend.symm.trans hset) (by simp)⟩
    simp only [ttread, hrun]
    split <;> exact hboth
  | look resid =>
    simp only [ttread]
    split_ifs <;> exact ⟨h, hp⟩
  | getc first resid =>
    simp only [ttread]
    cases hq : tp.qp tm with
    | nil => exact ⟨h, hp⟩
    | cons c q =>
      refine ⟨h.congr ?_ ?_, ?_⟩
      · simp only [State.setQp]
        split <;> rfl
      · simp only [State.setQp]
        split <;> rfl
      · simp only [State.setQp]
        by_cases hcanon : tm.icanon = true
        · rw [if_pos hcanon]
          exact hp
        · -- the raw queue held a character, so no input is pending
          rw [if_neg hcanon]
          intro hpend
          rw [State.qp, if_neg hcanon, hp hpend] at hq
          cases hq
  | unblock =>
    simp only [ttread, unblock]
    split_ifs with hcond
    · exact ⟨h.start hne hcond.1, hp⟩
    · exact ⟨h, hp⟩

theorem step_inv (hixoff : tm.ixoff = true) (hne : tm.c_cc .VSTOP ≠ tm.c_cc .VSTART)
    (hstop : tm.c_cc .VSTOP ≠ POSIX_VDISABLE) (s : Sys) (a : Action) (h : Inv tm s) (hok : Ok tm s a) :
    Inv tm (step tm s a) := by
  cases a with
  | ttyinput c room =>
    have hpend := ttyinput_pendin h c room
    exact ⟨(ttyinput_flow hixoff hne hstop h c room).2 hok, fun hset => absurd (hpend.symm.trans hset) (by simp)⟩
  | ttyflush fread =>
    refine ⟨(ttyflush_keeps fread s.tp).flow.2 h.flow, fun hset => ?_⟩
    have hraw := h.pendin ((ttyflush_keeps fread s.tp).pendin.symm.trans hset)
    cases fread with
    | false => exact hraw
    | true => rfl
  | ttread p w =>
    obtain ⟨hflow, hpend⟩ := ttread_inv hne w (s.pc p) h.flow h.pendin
    exact ⟨hflow, hpend⟩

/-! ## Raw mode

Where no line is ever complete and no parity error is marked, `enqueue` alone
fills `t_rawq`, and it stops at TTYHOG: flow control is in order in every run. -/

/-- In raw mode nothing gets to `t_canq`, and `t_rawq` holds TTYHOG characters at most. -/
structure Raw (tp : State) : Prop where
  canq : tp.canq = []
  rawq : tp.rawq.length ≤ TTYHOG

theorem Raw.blockOk (h : Raw tp) : BlockOk tm tp := by
  rw [BlockOk, if_neg (Nat.not_lt.2 h.rawq)]
  exact fun hcan => absurd h.canq hcan

theorem Raw.congr (h : Raw tp) (hraw : tp'.rawq = tp.rawq) (hcan : tp'.canq = tp.canq) : Raw tp' :=
  ⟨hcan.trans h.canq, hraw ▸ h.rawq⟩

theorem Raw.ttyflush (h : Raw tp) (fread : Bool) : Raw (ttyflush fread tp) := by
  cases fread with
  | false => exact h
  | true => exact ⟨rfl, Nat.zero_le _⟩

theorem Raw.ttyblock (h : Raw tp) : Raw (ttyblock tm tp) := by
  simp only [Tty.ttyblock, if_neg (Nat.not_lt.2 h.rawq)]
  split
  · exact h.congr rfl rfl
  · exact h

theorem Raw.enqueue (hraw : tm.icanon = false) (h : Raw tp) (room : Bool) (c : UInt32) : Raw (enqueue tm room c tp) := by
  unfold Tty.enqueue
  by_cases hfull : TTYHOG ≤ tp.total
  · rw [if_pos hfull]
    split
    · exact h
    · exact h.ttyflush true
  · have hlt : tp.rawq.length < TTYHOG := Nat.lt_of_le_of_lt (Nat.le_add_right _ _) (Nat.not_le.1 hfull)
    rw [if_neg hfull]
    cases room with
    | false => exact h
    | true =>
      simp only [hraw, putc]
      exact ⟨h.canq, by simpa using Nat.succ_le_of_lt hlt⟩

theorem Raw.process (hraw : tm.icanon = false) (h : Raw tp) (room : Bool) (c : UInt32) : Raw (process tm room c tp) := by
  have hcanonical : ∀ (d : UInt32) (tp : State), Raw tp → Raw (canonical tm room d tp) := by
    intro d tp h
    rw [canonical, if_pos (.inr (by simp [hraw]))]
    exact h.enqueue hraw room d
  have hspecial : ∀ (d : UInt32) (tp : State), Raw tp → Raw (special tm room d tp) := by
    intro d tp h
    unfold special
    split_ifs
    · exact h.congr rfl rfl
    · exact h.ttyflush false
    · exact h.ttyflush _
    · exact h
    · cases mapcr tm d with
      | none => exact h
      | some e => exact hcanonical e tp h
  simp only [Tty.process]
  generalize (if ¬tp.typen ∧ tm.istrip then CLR c 0x80 else c) = d
  split_ifs
  · exact hcanonical d tp h
  · exact hspecial _ _ (h.congr rfl rfl)
  · exact hspecial d tp h

theorem exceptional_ne_parmrk (hparmrk : tm.parmrk = false) (c d : UInt32) : exceptional tm c ≠ .parmrk d := by
  simp only [exceptional, hparmrk, Bool.false_eq_true, if_false]
  split_ifs <;> simp

theorem Raw.ttyinputChar (hraw : tm.icanon = false) (hparmrk : tm.parmrk = false) (h : Raw tp) (room : Nat → Bool)
    (c : UInt32) : Raw (ttyinputChar tm room c tp) := by
  unfold Tty.ttyinputChar
  cases hcase : exceptional tm c with
  | endcase => exact h
  | parmrk d => exact absurd hcase (exceptional_ne_parmrk hparmrk c d)
  | char d =>
    refine Raw.process hraw ?_ (room 0) d
    split
    · exact h.ttyblock
    · exact h

theorem Raw.pending (hraw : tm.icanon = false) (hparmrk : tm.parmrk = false) (h : Raw tp) (room : Nat → Nat → Bool) :
    Raw (if tp.pendin then ttypend tm room tp else tp) := by
  have hretype : ∀ (cs : List UInt32) (k : Nat) (tp : State), Raw tp → Raw (retype tm room k cs tp) := by
    intro cs
    induction cs with
    | nil => exact fun k tp h => h
    | cons c cs ih => exact fun k tp h => ih (k + 1) _ (h.ttyinputChar hraw hparmrk (room k) c)
  split
  · exact (hretype tp.rawq 0 { tp with pendin := false, typen := true, rawq := [] } ⟨h.canq, Nat.zero_le _⟩).congr rfl rfl
  · exact h

theorem step_raw (hraw : tm.icanon = false) (hparmrk : tm.parmrk = false) (s : Sys) (a : Action) (h : Raw s.tp) :
    Raw (step tm s a).tp := by
  cases a with
  | ttyinput c room => exact (h.pending hraw hparmrk (fun k => room (k + 1))).ttyinputChar hraw hparmrk (room 0) c
  | ttyflush fread => exact h.ttyflush fread
  | ttread p w =>
    simp only [step]
    generalize s.tp = tp at h
    cases s.pc p with
    | out => exact h
    | loop resid =>
      simp only [ttread]
      split <;> exact h.pending hraw hparmrk w.room
    | look resid =>
      simp only [ttread]
      split_ifs <;> exact h
    | getc first resid =>
      simp only [ttread, State.qp, State.setQp, hraw]
      cases hq : tp.rawq with
      | nil => simpa [hq] using h
      | cons c q =>
        have hlen := h.rawq
        rw [hq] at hlen
        simpa using ⟨h.canq, Nat.le_of_succ_le hlen⟩
    | unblock =>
      simp only [ttread, unblock]
      split
      · exact h.congr rfl rfl
      · exact h

theorem raw_along (hraw : tm.icanon = false) (hparmrk : tm.parmrk = false) {s : Sys} (h : Opened s) (as : List Action) :
    Along (step tm) (Ok tm) s as := by
  have hs : Raw s.tp := ⟨h.canq, by simp [h.rawq]⟩
  have htrue : Along (step tm) (fun _ _ => True) s as := along_of_forall (step tm) (fun _ _ => trivial) s as
  refine along_of_inv (fun t a ht _ => step_raw hraw hparmrk t a ht) ?_ hs htrue
  intro t a ht _
  cases a with
  | ttyinput c room => exact fun _ _ => ht.blockOk
  | ttyflush fread => trivial
  | ttread p w => trivial

/-- From the open of a terminal on, a run keeps flow control in order in every state
exactly if each of its steps meets the condition. -/
theorem input_flow_iff (hixoff : tm.ixoff = true) (hne : tm.c_cc .VSTOP ≠ tm.c_cc .VSTART)
    (hstop : tm.c_cc .VSTOP ≠ POSIX_VDISABLE) {s : Sys} (h : Opened s) (as : List Action) :
    (∀ t ∈ states (step tm) s as, FlowOk tm t.tp) ↔ Along (step tm) (Ok tm) s as := by
  refine states_iff_ok (step_inv hixoff hne hstop) (fun t ht => ht.flow) ?_ as h.inv
  intro t a ht hbad
  cases a with
  | ttyinput c room => exact fun hflow => hbad ((ttyinput_flow hixoff hne hstop ht c room).1 hflow)
  | ttyflush fread => exact absurd trivial hbad
  | ttread p w => exact absurd trivial hbad

/-- A terminal with IXOFF whose special characters are all off but for VSTART and VSTOP. -/
def ixoff (icanon : Bool) : Termios where
  ignbrk := false
  brkint := false
  ignpar := false
  parmrk := false
  inpck := false
  istrip := false
  inlcr := false
  igncr := false
  icrnl := false
  ixon := false
  ixoff := true
  imaxbel := false
  icanon := icanon
  isig := false
  iexten := false
  extproc := false
  altwerase := false
  noflsh := false
  c_cc
    | .VSTART => 0x11
    | .VSTOP => 0x13
    | _ => POSIX_VDISABLE

/-- A terminal just opened. -/
def opened : Sys := ⟨⟨[], [], false, false, false, false, []⟩, fun _ => .out⟩

theorem opened_opened : Opened opened := ⟨rfl, rfl, rfl, rfl, fun _ => rfl⟩

/-- Four characters are typed: a line, and two more. -/
def keys : List Action := ([0x61, 0x0a, 0x62, 0x63] : List UInt32).map fun c => .ttyinput c fun _ _ => true

theorem input_flow_raw : FlowOk (ixoff false) (final (step (ixoff false)) opened keys).tp :=
  (input_flow_iff rfl (by decide) (by decide) opened_opened keys).2 (raw_along rfl rfl opened_opened keys) _
    (final_mem_states _ _ _)

/-- In canonical mode a line waits for its reader, and VSTOP goes out for each character behind it, two and three
characters being queued. -/
theorem input_flow_canonical : ¬∀ t ∈ states (step (ixoff true)) opened keys, FlowOk (ixoff true) t.tp := by
  intro h
  have hsent : (final (step (ixoff true)) opened keys).tp.sent = [(0x13, 2), (0x13, 3)] := by decide
  have halternate := (h _ (final_mem_states (step (ixoff true)) opened keys)).alternate
  rw [hsent] at halternate
  exact absurd halternate.2.1 (by decide)

end BsdKernel.Tty
