import BsdKernel.Kern.SockbufCount
/-!
# Receiving from a socket

`soreceive` of `kern/uipc_socket.c`, on the socket buffers of `Kern/Sockbuf`.
The two uses of its loop, with MSG_PEEK and without, keep different books: a
peek counts with `moff` and `offset` what the other takes from `m_data`,
`so_oobmark` and the queue. Nobody else touches the socket during a call, so a
sleep of it ends with an error. The user's buffer can be written; what PRU_RCVD
does in the protocol touches nothing here.

`peek_iff` says exactly when a peek leaves the socket as it was and shows what
the receive behind it returns.
-/

namespace BsdKernel.Soreceive

open BsdKernel.Lib BsdKernel.Socket

inductive Errno where
  | EWOULDBLOCK | ENOTCONN | EOPNOTSUPP | EINVAL
  /-- `so_error`, the error of a sleep, or that of `dom_externalize` -/
  | other (errno : Nat)
  deriving DecidableEq, Repr

/-- What PRU_RCVOOB reads of a `tcpcb` and the options of its socket. -/
structure Tcpcb where
  oobinline : Bool
  havedata : Bool
  haddata : Bool
  t_iobc : Byte

/-- What a receive reads and writes of a socket. `pcb` is that of TCP: the other protocols do not
support PRU_RCVOOB. -/
structure Sock where
  so_rcv : Sockbuf
  sb_lowat : Int
  so_oobmark : Nat
  rcvatmark : Bool
  cantrcvmore : Bool
  /-- SS_ISCONNECTED or SS_ISCONNECTING -/
  connected : Bool
  nbio : Bool
  so_error : Option Errno
  pcb : Option Tcpcb

/-- The flags of the protocol, and `dom_externalize` with the error it returns. -/
structure Protosw where
  addr : Bool
  atomic : Bool
  connrequired : Bool
  externalize : Option (Mbuf → Option Errno)

/-- The arguments of a receive, `flagsp` being given. `mem k` says whether there are mbufs for the
`k`th `m_copy`, and `wakeup` is the error that ends a sleep. -/
structure Req where
  resid : Nat
  paddr : Bool
  mp0 : Bool
  controlp : Bool
  oob : Bool
  dontwait : Bool
  waitall : Bool
  mem : Nat → Bool
  wakeup : Errno

/-- The flags that a receive adds to `*flagsp`. -/
structure Flags where
  eor : Bool
  trunc : Bool
  oob : Bool
  deriving DecidableEq

/-- What a receive returns: its error, the bytes at the user's or in the chain `*mp0`, the address,
the lengths of the control mbufs, and the flags, if it stores them. -/
structure Ret where
  error : Option Errno
  data : List Byte
  addr : Option (List Byte)
  control : List Nat
  flags : Option Flags
  deriving DecidableEq

/-- A return without data. -/
def Ret.bare (error : Option Errno) : Ret := ⟨error, [], none, [], none⟩

/-! ## Parts of a pass -/

/-- `m_copy (m, 0, m->m_len)`: without bytes it copies nothing and returns no mbuf. -/
def m_copy (mem : Bool) (m : Mbuf) : Option (List Byte) := if mem ∧ m.data ≠ [] then some m.data else none

/-- PRU_RCVOOB. -/
def rcvoob (peek : Bool) (so : Sock) : Except Errno Byte × Sock :=
  match so.pcb with
  | none => (.error .EOPNOTSUPP, so)
  | some tp =>
    if so.so_oobmark = 0 ∧ ¬so.rcvatmark ∨ tp.oobinline ∨ tp.haddata then (.error .EINVAL, so)
    else if ¬tp.havedata then (.error .EWOULDBLOCK, so)
    else (.ok tp.t_iobc, if peek then so else { so with pcb := some { tp with havedata := false, haddata := true } })

/-- Receipt of out-of-band data. -/
def receiveOob (peek : Bool) (req : Req) (so : Sock) : Sock × Ret :=
  match rcvoob peek so with
  | (.error e, so) => (so, .bare (some e))
  | (.ok c, so) => (so, { Ret.bare none with data := [c].take req.resid })

/-- The test before data is taken: `none` if there is something to take, and otherwise how the call ends. -/
def block (peek : Bool) (pr : Protosw) (req : Req) (so : Sock) : Option (Sock × Option Errno) :=
  let m := so.so_rcv.recs.headD []
  if m = [] ∨ (¬req.dontwait ∧ so.so_rcv.cc < req.resid) ∧
      (so.so_rcv.cc < so.sb_lowat ∨ req.waitall ∧ (req.resid : Int) ≤ so.so_rcv.hiwat) ∧
      so.so_rcv.recs.tail = [] ∧ ¬pr.atomic then
    match so.so_error with
    | some e => if m = [] then some (if peek then so else { so with so_error := none }, some e) else none
    | none =>
      if so.cantrcvmore then if m = [] then some (so, none) else none
      else if m.any fun b => b.mtype == .oobdata || b.eor then none
      else if ¬so.connected ∧ pr.connrequired then some (so, some .ENOTCONN)
      else if req.resid = 0 then some (so, none)
      else if so.nbio ∨ req.dontwait then some (so, some .EWOULDBLOCK)
      else some (so, some req.wakeup)
  else none

/-- The loop over control mbufs: the lengths of what `*controlp` got, whether there is a place for
more (`&(*controlp)->m_next` is null behind a copy that failed), whether `orig_resid` is cleared, and
the counters of `so_rcv`. -/
structure Control where
  lens : List Nat
  controlp : Bool
  any : Bool
  error : Option Errno
  counters : Counters

/-- `cmsg_type` is SCM_RIGHTS. -/
def scmRights (m : Mbuf) : Bool := (m.data.drop 8).take 4 == [1, 0, 0, 0]

/-- One control mbuf. -/
def takeControl (peek : Bool) (pr : Protosw) (mem : Bool) (m : Mbuf) (c : Control) : Control :=
  if peek then
    if c.controlp then
      match m_copy mem m with
      | some bytes => { c with lens := c.lens ++ [bytes.length], any := true }
      | none => { c with controlp := false, any := true }
    else c
  else
    let c := { c with counters := sbfree c.counters m }
    if c.controlp then
      { c with
        lens := c.lens ++ [m.len]
        any := true
        error := if scmRights m then pr.externalize.bind fun ext => ext m else none }
    else c

def control (peek : Bool) (pr : Protosw) (mem : Nat → Bool) : Nat → List Mbuf → Control → List Mbuf × Control
  | _, [], c => ([], c)
  | k, m :: rest, c =>
    if m.mtype = .control ∧ c.error = none then control peek pr mem (k + 1) rest (takeControl peek pr (mem k) m c)
    else (m :: rest, c)

/-- The loop over the data: its books, and what it changes of the socket. -/
structure Books where
  m : List Mbuf
  moff : Nat
  offset : Nat
  so_oobmark : Nat
  rcvatmark : Bool
  resid : Nat
  data : List Byte
  eor : Bool
  /-- the call returned from a sleep -/
  slept : Bool
  counters : Counters

/-- The end of an iteration that took `len` bytes: the out-of-band mark. -/
def mark (peek : Bool) (len : Nat) (s : Books) : Books :=
  if s.so_oobmark = 0 then s
  else if peek then { s with offset := s.offset + len }
  else { s with so_oobmark := s.so_oobmark - len, rcvatmark := s.rcvatmark || s.so_oobmark - len == 0 }

/-- The mark is reached. -/
def atMark (peek : Bool) (before : Nat) (s : Books) : Bool :=
  before != 0 && if peek then s.offset == s.so_oobmark else s.so_oobmark == 0

/-- What an iteration takes of an mbuf. -/
def amount (b : Mbuf) (s : Books) : Nat :=
  let len := s.resid
  let len := if s.so_oobmark ≠ 0 ∧ s.so_oobmark - s.offset < len then s.so_oobmark - s.offset else len
  if b.len - s.moff < len then b.len - s.moff else len

/-- An iteration takes `len` bytes of `b`. -/
def took (len : Nat) (b : Mbuf) (s : Books) : Books :=
  { s with rcvatmark := false, data := s.data ++ (b.data.drop s.moff).take len, resid := s.resid - len }

/-- An iteration that takes what is left of `b`. -/
def whole (peek : Bool) (b : Mbuf) (s : Books) : Books :=
  let len := amount b s
  mark peek len { took len b s with
    eor := s.eor || b.eor
    moff := if peek then 0 else s.moff
    counters := if peek then s.counters else sbfree s.counters b }

/-- An iteration that leaves a part of `b`. -/
def part (peek : Bool) (b : Mbuf) (rest : List Mbuf) (s : Books) : Books :=
  let len := amount b s
  mark peek len (if peek then { took len b s with moff := s.moff + len, m := b :: rest }
    else { took len b s with
      counters := { s.counters with cc := s.counters.cc - len }
      m := { b with data := b.data.drop len, off := b.off + len } :: rest })

/-- The loop over the data. `oob` says that its first mbuf is out-of-band data, and `waits` that
MSG_WAITALL sleeps for more at the end of the queue. -/
def loop (peek oob waits : Bool) : List Mbuf → Books → Books
  | [], s => { s with m := [] }
  | b :: rest, s =>
    if s.resid = 0 then { s with m := b :: rest }
    else if (b.mtype == .oobdata) != oob then { s with m := b :: rest }
    else if amount b s = b.len - s.moff then
      let s' := whole peek b s
      if atMark peek s.so_oobmark s' ∨ s'.eor then { s' with m := rest }
      else if rest = [] ∧ 0 < s'.resid ∧ waits then { s' with m := [], slept := true }
      else loop peek oob waits rest s'
    -- part of an mbuf is all that is left to take: `uio_resid` is used up or the mark is reached
    else part peek b rest s

/-! ## The call -/

/-- How a pass ends. -/
inductive Pass where
  | ret (so : Sock) (r : Ret)
  | restart (so : Sock) (flags : Flags)

/-- The end of a pass behind the loop over the data. -/
def finish (peek : Bool) (pr : Protosw) (req : Req) (flags : Flags) (so : Sock) (next : List (List Mbuf))
    (addr : Option (List Byte)) (c : Control) (s : Books) : Pass :=
  let orig := if pr.addr ∨ c.any then 0 else req.resid
  let trunc := !s.m.isEmpty && pr.atomic
  let recs := if s.m = [] ∨ pr.atomic then next else s.m :: next
  let counters := if trunc then sbfreeChain s.counters s.m else s.counters
  let so := { so with
    so_oobmark := s.so_oobmark
    rcvatmark := s.rcvatmark
    so_rcv := if peek then so.so_rcv else { so.so_rcv with toCounters := counters, recs := recs } }
  let flags := { flags with eor := s.eor, trunc := flags.trunc || trunc }
  let r : Ret := ⟨c.error, if peek ∧ req.mp0 then [] else s.data, addr, c.lens, some flags⟩
  if s.slept then .ret so { r with error := none, flags := none }
  else if orig = s.resid ∧ orig ≠ 0 ∧ ¬s.eor ∧ ¬so.cantrcvmore then .restart so flags
  else .ret so r

/-- What a pass takes from the record `m :: rest`, before `next`, once it does not block. -/
def take (peek : Bool) (pr : Protosw) (req : Req) (flags : Flags) (so : Sock) (m : Mbuf) (rest : List Mbuf)
    (next : List (List Mbuf)) : Pass :=
  let addr := if pr.addr ∧ req.paddr then if peek then m_copy (req.mem 0) m else some m.data else none
  let counters := if pr.addr ∧ ¬peek then sbfree so.so_rcv.toCounters m else so.so_rcv.toCounters
  let (chain, c) :=
    control peek pr req.mem 1 (if pr.addr then rest else m :: rest) ⟨[], req.controlp, false, none, counters⟩
  let oob := chain.head?.any (·.mtype == .oobdata)
  let flags := { flags with oob := flags.oob || oob }
  let waits := req.waitall && !pr.atomic && next.isEmpty && so.so_error.isNone && !so.cantrcvmore
  let books : Books := ⟨chain, 0, 0, so.so_oobmark, so.rcvatmark, req.resid, [], flags.eor, false, c.counters⟩
  finish peek pr req flags so next addr c (if c.error = none then loop peek oob waits chain books else books)

/-- `soreceive` from `restart` on. -/
def pass (peek : Bool) (pr : Protosw) (req : Req) (flags : Flags) (so : Sock) : Pass :=
  if so.so_rcv.locked then .ret so (.bare (some (if req.dontwait then .EWOULDBLOCK else req.wakeup)))
  else
    match block peek pr req so with
    | some (so, e) => .ret so (.bare e)
    | none =>
      match so.so_rcv.recs with
      | (m :: rest) :: next => take peek pr req flags so m rest next
      | _ => .ret so (.bare none)

/-- `soreceive`, for at most `fuel` passes. -/
def soreceive (peek : Bool) (pr : Protosw) (req : Req) : Nat → Flags → Sock → Option (Sock × Ret)
  | 0, _, _ => none
  | fuel + 1, flags, so =>
    if req.oob then some (receiveOob peek req so)
    else
      match pass peek pr req flags so with
      | .ret so r => some (so, r)
      | .restart so flags => soreceive peek pr req fuel flags so

/-! ## What a peek should do -/

/-- The call returns. -/
def Returns (peek : Bool) (pr : Protosw) (req : Req) (so so' : Sock) (r : Ret) : Prop :=
  ∃ fuel, soreceive peek pr req fuel ⟨false, false, false⟩ so = some (so', r)

/-- A peek returns and leaves the socket as it was, and the receive behind it returns the same. -/
def Peeks (pr : Protosw) (req : Req) (so : Sock) : Prop :=
  ∃ r, Returns true pr req so so r ∧ ∃ so', Returns false pr req so so' r

/-- Nothing can be taken up to the end of the record or other data: the mbufs are empty. -/
def Dry (oob : Bool) : List Mbuf → Prop
  | [] => True
  | b :: rest => (b.mtype == .oobdata) ≠ oob ∨ b.data = [] ∧ (b.eor = true ∨ Dry oob rest)

/-- Nothing can be taken, and no MSG_EOR is met either. -/
def Barren (oob : Bool) : List Mbuf → Prop
  | [] => True
  | b :: rest => (b.mtype == .oobdata) ≠ oob ∨ b.data = [] ∧ b.eor = false ∧ Barren oob rest

/-- The control mbufs of a chain, and its data behind them. -/
def controls (chain : List Mbuf) : List Mbuf := chain.takeWhile (·.mtype == .control)

def dataOf (chain : List Mbuf) : List Mbuf := chain.dropWhile (·.mtype == .control)

/-- The data begins with out-of-band data. -/
def oobFirst (d : List Mbuf) : Bool := d.head?.any (·.mtype == .oobdata)

/-- A receive with MSG_WAITALL sleeps behind the data that there is. -/
def waitsFor (pr : Protosw) (req : Req) (so : Sock) (next : List (List Mbuf)) : Bool :=
  req.waitall && !pr.atomic && next.isEmpty && so.so_error.isNone && !so.cantrcvmore

/-- `m_copy` copies the control mbufs, the first with the `k`th call. -/
def Copied (mem : Nat → Bool) (k : Nat) (l : List Mbuf) : Prop :=
  ∀ i (h : i < l.length), mem (k + i) = true ∧ l[i].data ≠ []

/-- The receive has descriptors for the rights in control mbufs. -/
def Externalized (pr : Protosw) (l : List Mbuf) : Prop :=
  ∀ b ∈ l, scmRights b = true → (pr.externalize.bind fun ext => ext b) = none

/-- Something comes of a record, or the receive ends without it. -/
def Fruit (pr : Protosw) (req : Req) (so : Sock) (chain : List Mbuf) (next : List (List Mbuf)) : Prop :=
  pr.addr = true ∨ req.controlp = true ∧ controls chain ≠ [] ∨ req.resid = 0 ∨ so.cantrcvmore = true ∨
    ¬Barren (oobFirst (dataOf chain)) (dataOf chain) ∨
    waitsFor pr req so next = true ∧ dataOf chain ≠ [] ∧
      ∀ b ∈ dataOf chain, (b.mtype == .oobdata) = oobFirst (dataOf chain)

/-- What a peek needs of the first record, with its control mbufs and data in `chain` and `m` the first
mbuf of all. -/
structure Clean (pr : Protosw) (req : Req) (so : Sock) (m : Mbuf) (chain : List Mbuf) (next : List (List Mbuf)) :
    Prop where
  /-- the address is copied -/
  addr : pr.addr = true → req.paddr = true → req.mem 0 = true ∧ m.data ≠ []
  copies : req.controlp = true → Copied req.mem 1 (controls chain)
  rights : req.controlp = true → Externalized pr (controls chain)
  /-- no data is looked at while SS_RCVATMARK is set -/
  mark : so.rcvatmark = true → req.resid = 0 ∨ dataOf chain = []
  /-- no data is to go to `*mp0` -/
  mp : req.mp0 = true → req.resid = 0 ∨ Dry (oobFirst (dataOf chain)) (dataOf chain)
  fruit : Fruit pr req so chain next

/-- The record behind the address. -/
def chainOf (pr : Protosw) (first : Mbuf) (rest : List Mbuf) : List Mbuf := if pr.addr then rest else first :: rest

/-- The condition: a peek that takes something from the queue does so from a clean record. -/
def Ok (pr : Protosw) (req : Req) (so : Sock) : Prop :=
  req.oob = true ∨ so.so_rcv.locked = true ∨ (block true pr req so).isSome = true ∨
    match so.so_rcv.recs with
    | (m :: rest) :: next => Clean pr req so m (chainOf pr m rest) next
    | _ => True

/-! ## Control mbufs -/

variable {pr : Protosw} {req : Req} {mem : Nat → Bool} {k : Nat} {c : Control} {m : List Mbuf}

theorem m_copy_some {b : Bool} {m : Mbuf} (h : b = true ∧ m.data ≠ []) : m_copy b m = some m.data := if_pos h

theorem m_copy_none {b : Bool} {m : Mbuf} (h : ¬(b = true ∧ m.data ≠ [])) : m_copy b m = none := if_neg h

theorem copied_cons {b : Mbuf} {l : List Mbuf} :
    Copied mem k (b :: l) ↔ (mem k = true ∧ b.data ≠ []) ∧ Copied mem (k + 1) l := by
  constructor
  · intro h
    refine ⟨h 0 (Nat.succ_pos _), fun i hi => ?_⟩
    rw [show k + 1 + i = k + (i + 1) by omega]
    exact h (i + 1) (Nat.succ_lt_succ hi)
  · rintro ⟨hb, hl⟩ i hi
    cases i with
    | zero => exact hb
    | succ i =>
      rw [show k + (i + 1) = k + 1 + i by omega]
      exact hl i (Nat.lt_of_succ_lt_succ hi)

/-- A peek goes over the control mbufs, and returns as many as there are if all can be copied, or
fewer. -/
theorem control_peek (pr : Protosw) (mem : Nat → Bool) (k : Nat) (m : List Mbuf) (c : Control) (he : c.error = none) :
    (control true pr mem k m c).1 = dataOf m ∧
      (control true pr mem k m c).2.error = none ∧
      ((control true pr mem k m c).2.any = true ↔ c.any = true ∨ c.controlp = true ∧ controls m ≠ []) ∧
      (c.controlp = false → (control true pr mem k m c).2.lens = c.lens) ∧
      (c.controlp = true → Copied mem k (controls m) →
        (control true pr mem k m c).2.lens = c.lens ++ (controls m).map Mbuf.len) ∧
      (c.controlp = true → ¬Copied mem k (controls m) →
        (control true pr mem k m c).2.lens.length < c.lens.length + (controls m).length) := by
  induction m generalizing k c with
  | nil => simp [control, dataOf, controls, he, Copied]
  | cons b m ih =>
    by_cases hb : b.mtype = .control
    · have hrun : control true pr mem k (b :: m) c = control true pr mem (k + 1) m (takeControl true pr (mem k) b c) := by
        simp [control, hb, he]
      have hdata : dataOf (b :: m) = dataOf m := by simp [dataOf, hb]
      have hctl : controls (b :: m) = b :: controls m := by simp [controls, hb]
      rw [hrun, hdata, hctl]
      by_cases hp : c.controlp = true
      · by_cases hcopy : mem k = true ∧ b.data ≠ []
        · have htake : takeControl true pr (mem k) b c = { c with lens := c.lens ++ [b.data.length], any := true } := by
            simp [takeControl, hp, m_copy_some hcopy]
          obtain ⟨h1, h2, h3, h4, h5, h6⟩ := ih (k + 1) { c with lens := c.lens ++ [b.data.length], any := true } he
          rw [htake, copied_cons]
          refine ⟨h1, h2, h3.trans (by simp [hp]), fun hf => by simp [hp] at hf, fun _ hc => ?_, fun _ hc => ?_⟩
          · rw [h5 hp hc.2]
            simp [Mbuf.len]
          · have hlt := h6 hp fun hc' => hc ⟨hcopy, hc'⟩
            simp only [List.length_append, List.length_cons, List.length_nil] at hlt ⊢
            omega
        · have htake : takeControl true pr (mem k) b c = { c with controlp := false, any := true } := by
            simp [takeControl, hp, m_copy_none hcopy]
          obtain ⟨h1, h2, h3, h4, -, -⟩ := ih (k + 1) { c with controlp := false, any := true } he
          rw [htake, copied_cons]
          refine ⟨h1, h2, h3.trans (by simp [hp]), fun hf => by simp [hp] at hf, fun _ hc => absurd hc.1 hcopy, fun _ _ => ?_⟩
          rw [h4 rfl, List.length_cons]
          exact Nat.lt_add_of_pos_right (Nat.succ_pos _)
      · have htake : takeControl true pr (mem k) b c = c := by simp [takeControl, hp]
        obtain ⟨h1, h2, h3, h4, -, -⟩ := ih (k + 1) c he
        rw [htake]
        exact ⟨h1, h2, h3.trans (by simp [hp]), h4, fun h => absurd h hp, fun h => absurd h hp⟩
    · have hrun : control true pr mem k (b :: m) c = (b :: m, c) := by simp [control, hb]
      have hdata : dataOf (b :: m) = b :: m := by simp [dataOf, hb]
      have hctl : controls (b :: m) = [] := by simp [controls, hb]
      rw [hrun, hdata, hctl]
      simp [he, Copied]

/-- The receive takes the control mbufs off the queue, and returns all of them unless rights cannot be
passed on. -/
theorem control_consume (pr : Protosw) (mem : Nat → Bool) (k : Nat) (m : List Mbuf) (c : Control) (he : c.error = none) :
    ((c.controlp = true → Externalized pr (controls m)) →
      (control false pr mem k m c).1 = dataOf m ∧ (control false pr mem k m c).2.error = none ∧
      ((control false pr mem k m c).2.any = true ↔ c.any = true ∨ c.controlp = true ∧ controls m ≠ []) ∧
      (control false pr mem k m c).2.lens = if c.controlp then c.lens ++ (controls m).map Mbuf.len else c.lens) ∧
    (c.controlp = true → ¬Externalized pr (controls m) →
      (control false pr mem k m c).2.error ≠ none ∧ (control false pr mem k m c).2.any = true) := by
  induction m generalizing k c with
  | nil => simp [control, dataOf, controls, he, Externalized]
  | cons b m ih =>
    by_cases hb : b.mtype = .control
    · have hrun : control false pr mem k (b :: m) c = control false pr mem (k + 1) m (takeControl false pr (mem k) b c) := by
        simp [control, hb, he]
      have hdata : dataOf (b :: m) = dataOf m := by simp [dataOf, hb]
      have hctl : controls (b :: m) = b :: controls m := by simp [controls, hb]
      rw [hrun, hdata, hctl]
      by_cases hp : c.controlp = true
      · obtain ⟨e, hext⟩ : ∃ e, (if scmRights b = true then pr.externalize.bind fun ext => ext b else none) = e := ⟨_, rfl⟩
        have htake : takeControl false pr (mem k) b c =
            { c with lens := c.lens ++ [b.len], any := true, error := e, counters := sbfree c.counters b } := by
          simp [takeControl, hp, hext]
        rw [htake]
        cases e with
        | none =>
          have hcons : Externalized pr (b :: controls m) ↔ Externalized pr (controls m) := by
            simp only [Externalized, List.forall_mem_cons, and_iff_right_iff_imp]
            intro _ hr
            rwa [if_pos hr] at hext
          obtain ⟨hok, hfail⟩ := ih (k + 1)
            { c with lens := c.lens ++ [b.len], any := true, error := none, counters := sbfree c.counters b } rfl
          rw [hcons]
          refine ⟨fun h => ?_, fun _ h => hfail hp h⟩
          obtain ⟨h1, h2, h3, h4⟩ := hok fun _ => h hp
          refine ⟨h1, h2, h3.trans (by simp [hp]), ?_⟩
          rw [h4]
          simp [hp]
        | some e =>
          -- the loop over control mbufs ends with the error
          have hbad : ¬Externalized pr (b :: controls m) := by
            intro hall
            by_cases hr : scmRights b = true
            · rw [if_pos hr, hall b List.mem_cons_self hr] at hext
              cases hext
            · rw [if_neg hr] at hext
              cases hext
          have hstop : ∀ (m : List Mbuf) (c : Control), c.error ≠ none → (control false pr mem (k + 1) m c).2 = c := by
            intro m c hc
            cases m with
            | nil => rfl
            | cons b m => simp [control, hc]
          rw [hstop _ _ (by simp)]
          exact ⟨fun h => absurd (h hp) hbad, fun _ _ => ⟨by simp, rfl⟩⟩
      · have htake : takeControl false pr (mem k) b c = { c with counters := sbfree c.counters b } := by
          simp [takeControl, hp]
        obtain ⟨hok, -⟩ := ih (k + 1) { c with counters := sbfree c.counters b } he
        rw [htake]
        refine ⟨fun _ => ?_, fun h => absurd h hp⟩
        obtain ⟨h1, h2, h3, h4⟩ := hok fun h => absurd h hp
        exact ⟨h1, h2, h3.trans (by simp [hp]), by rw [h4]; simp [hp]⟩
    · have hrun : control false pr mem k (b :: m) c = (b :: m, c) := by simp [control, hb]
      have hdata : dataOf (b :: m) = b :: m := by simp [dataOf, hb]
      have hctl : controls (b :: m) = [] := by simp [controls, hb]
      rw [hrun, hdata, hctl]
      simp [he, Externalized]

/-! ## The loop over the data -/

variable {oob waits : Bool} {b : Mbuf} {s s' : Books}

/-- Between two mbufs, what a peek counts is what the receive has taken off. -/
structure Rel (s s' : Books) : Prop where
  resid : s'.resid = s.resid
  data : s'.data = s.data
  eor : s'.eor = s.eor
  slept : s'.slept = s.slept
  moff : s.moff = 0
  moff' : s'.moff = 0
  offset : s'.offset = 0
  oobmark : s'.so_oobmark = s.so_oobmark - s.offset
  inside : s.so_oobmark = 0 ∧ s.offset = 0 ∨ s.offset < s.so_oobmark

theorem amount_le (h : s.so_oobmark ≠ 0) : amount b s ≤ s.so_oobmark - s.offset := by
  simp only [amount]
  split_ifs <;> omega

theorem amount_le_len : amount b s ≤ b.len - s.moff := by
  simp only [amount]
  split_ifs <;> omega

theorem amount_le_resid : amount b s ≤ s.resid := by
  simp only [amount]
  split_ifs <;> omega

theorem whole_books (peek : Bool) (b : Mbuf) (s : Books) :
    (whole peek b s).resid = s.resid - amount b s ∧
      (whole peek b s).data = s.data ++ (b.data.drop s.moff).take (amount b s) ∧
      (whole peek b s).eor = (s.eor || b.eor) ∧ (whole peek b s).slept = s.slept ∧
      (whole peek b s).moff = if peek then 0 else s.moff := by
  simp only [whole, mark, took]
  split_ifs <;> exact ⟨rfl, rfl, rfl, rfl, rfl⟩

theorem whole_peek (b : Mbuf) (s : Books) :
    (whole true b s).so_oobmark = s.so_oobmark ∧ (whole true b s).rcvatmark = false ∧
      (whole true b s).offset = if s.so_oobmark = 0 then s.offset else s.offset + amount b s := by
  simp only [whole, mark, took]
  by_cases h : s.so_oobmark = 0 <;> simp [h]

theorem whole_consume (b : Mbuf) (s : Books) :
    (whole false b s).so_oobmark = s.so_oobmark - amount b s ∧ (whole false b s).offset = s.offset := by
  simp only [whole, mark, took]
  by_cases h : s.so_oobmark = 0 <;> simp [h]

theorem part_books (peek : Bool) (b : Mbuf) (rest : List Mbuf) (s : Books) :
    (part peek b rest s).resid = s.resid - amount b s ∧
      (part peek b rest s).data = s.data ++ (b.data.drop s.moff).take (amount b s) ∧
      (part peek b rest s).eor = s.eor ∧ (part peek b rest s).slept = s.slept ∧ (part peek b rest s).m ≠ [] := by
  cases peek <;> simp only [part, mark, took] <;> split_ifs <;> simp_all

theorem part_peek (b : Mbuf) (rest : List Mbuf) (s : Books) :
    (part true b rest s).so_oobmark = s.so_oobmark ∧ (part true b rest s).rcvatmark = false := by
  simp only [part, mark, took]
  by_cases h : s.so_oobmark = 0 <;> simp [h]

theorem Rel.amount (h : Rel s s') (b : Mbuf) : amount b s' = amount b s := by
  have hin := h.inside
  simp only [Soreceive.amount, h.resid, h.moff, h.moff', h.offset, h.oobmark]
  have hiff : s.so_oobmark - s.offset ≠ 0 ↔ s.so_oobmark ≠ 0 := by omega
  simp only [hiff, Nat.sub_zero]

theorem atMark_peek (b : Mbuf) (s : Books) :
    atMark true s.so_oobmark (whole true b s) = true ↔ s.so_oobmark ≠ 0 ∧ s.offset + amount b s = s.so_oobmark := by
  obtain ⟨hmark, -, hoff⟩ := whole_peek b s
  simp only [atMark, hmark, hoff, if_true, Bool.and_eq_true, bne_iff_ne, beq_iff_eq]
  refine and_congr_right fun hne => ?_
  rw [if_neg hne]

theorem atMark_consume (b : Mbuf) (s : Books) :
    atMark false s.so_oobmark (whole false b s) = true ↔ s.so_oobmark ≠ 0 ∧ s.so_oobmark - amount b s = 0 := by
  simp only [atMark, (whole_consume b s).1, Bool.false_eq_true, if_false, Bool.and_eq_true, bne_iff_ne, beq_iff_eq]

theorem Rel.atMark (h : Rel s s') (b : Mbuf) :
    Soreceive.atMark false s'.so_oobmark (Soreceive.whole false b s') =
      Soreceive.atMark true s.so_oobmark (Soreceive.whole true b s) := by
  have hin := h.inside
  have hle := amount_le (b := b) (s := s)
  rw [Bool.eq_iff_iff, atMark_peek, atMark_consume, h.amount, h.oobmark]
  omega

theorem Rel.whole (h : Rel s s') (b : Mbuf) (hm : ¬Soreceive.atMark true s.so_oobmark (Soreceive.whole true b s) = true) :
    Rel (Soreceive.whole true b s) (Soreceive.whole false b s') := by
  have hin := h.inside
  have hle := amount_le (b := b) (s := s)
  rw [atMark_peek] at hm
  obtain ⟨hresid, hdata, heor, hslept, hmoff⟩ := whole_books true b s
  obtain ⟨hresid', hdata', heor', hslept', hmoff'⟩ := whole_books false b s'
  obtain ⟨hmark, -, hoff⟩ := whole_peek b s
  obtain ⟨hmark', hoff'⟩ := whole_consume b s'
  refine ⟨?_, ?_, ?_, ?_, hmoff, hmoff'.trans h.moff', hoff'.trans h.offset, ?_, ?_⟩
  · rw [hresid, hresid', h.amount, h.resid]
  · rw [hdata, hdata', h.amount, h.data, h.moff, h.moff']
  · rw [heor, heor', h.eor]
  · rw [hslept, hslept', h.slept]
  · rw [hmark', hmark, hoff, h.amount, h.oobmark]
    split <;> omega
  · rw [hmark, hoff]
    split <;> omega

/-- A peek and a receive end their loops with the same. -/
structure SameEnd (t t' : Books) : Prop where
  resid : t'.resid = t.resid
  data : t'.data = t.data
  eor : t'.eor = t.eor
  slept : t'.slept = t.slept
  m : t'.m = [] ↔ t.m = []

theorem Rel.same (h : Rel s s') (m : List Mbuf) : SameEnd { s with m := m } { s' with m := m } :=
  ⟨h.resid, h.data, h.eor, h.slept, Iff.rfl⟩

/-- The two uses of the loop return the same. -/
theorem loop_same (oob waits : Bool) (m : List Mbuf) {s s' : Books} (h : Rel s s') :
    SameEnd (loop true oob waits m s) (loop false oob waits m s') := by
  induction m generalizing s s' with
  | nil => exact h.same []
  | cons b m ih =>
    simp only [loop]
    by_cases h0 : s.resid = 0
    · simp only [if_pos h0, if_pos (h.resid.trans h0)]
      exact h.same (b :: m)
    · simp only [if_neg h0, if_neg fun h0' => h0 (h.resid.symm.trans h0')]
      by_cases ht : ((b.mtype == .oobdata) != oob) = true
      · simp only [if_pos ht]
        exact h.same (b :: m)
      · have hw : amount b s' = b.len - s'.moff ↔ amount b s = b.len - s.moff := by rw [h.amount, h.moff, h.moff']
        simp only [if_neg ht, hw]
        by_cases hw : amount b s = b.len - s.moff
        · simp only [if_pos hw]
          obtain ⟨hresid, hdata, heor, hslept, -⟩ := whole_books true b s
          obtain ⟨hresid', hdata', heor', hslept', -⟩ := whole_books false b s'
          have hr : (Soreceive.whole false b s').resid = (Soreceive.whole true b s).resid := by
            rw [hresid, hresid', h.amount, h.resid]
          have hd : (Soreceive.whole false b s').data = (Soreceive.whole true b s).data := by
            rw [hdata, hdata', h.amount, h.data, h.moff, h.moff']
          have he : (Soreceive.whole false b s').eor = (Soreceive.whole true b s).eor := by rw [heor, heor', h.eor]
          have hs : (Soreceive.whole false b s').slept = (Soreceive.whole true b s).slept := by rw [hslept, hslept', h.slept]
          have hm : (atMark false s'.so_oobmark (Soreceive.whole false b s') = true ∨
              (Soreceive.whole false b s').eor = true) ↔
              (atMark true s.so_oobmark (Soreceive.whole true b s) = true ∨ (Soreceive.whole true b s).eor = true) := by
            rw [h.atMark, he]
          simp only [hm]
          by_cases hstop : atMark true s.so_oobmark (Soreceive.whole true b s) = true ∨ (Soreceive.whole true b s).eor = true
          · simp only [if_pos hstop]
            exact ⟨hr, hd, he, hs, Iff.rfl⟩
          · have hend : (m = [] ∧ 0 < (Soreceive.whole false b s').resid ∧ waits = true) ↔
                (m = [] ∧ 0 < (Soreceive.whole true b s).resid ∧ waits = true) := by rw [hr]
            simp only [if_neg hstop, hend]
            by_cases hend : m = [] ∧ 0 < (Soreceive.whole true b s).resid ∧ waits = true
            · simp only [if_pos hend]
              exact ⟨hr, hd, he, rfl, Iff.rfl⟩
            · simp only [if_neg hend]
              exact ih (h.whole b fun hat => hstop (.inl hat))
        · simp only [if_neg hw]
          obtain ⟨hresid, hdata, heor, hslept, hne⟩ := part_books true b m s
          obtain ⟨hresid', hdata', heor', hslept', hne'⟩ := part_books false b m s'
          refine ⟨?_, ?_, ?_, ?_, iff_of_false hne' hne⟩
          · rw [hresid, hresid', h.amount, h.resid]
          · rw [hdata, hdata', h.amount, h.data, h.moff, h.moff']
          · rw [heor, heor', h.eor]
          · rw [hslept, hslept', h.slept]

theorem loop_oobmark (oob waits : Bool) (m : List Mbuf) (s : Books) :
    (loop true oob waits m s).so_oobmark = s.so_oobmark := by
  induction m generalizing s with
  | nil => rfl
  | cons b m ih =>
    simp only [loop]
    split_ifs
    · rfl
    · rfl
    · exact (whole_peek b s).1
    · exact (whole_peek b s).1
    · exact (ih _).trans (whole_peek b s).1
    · exact (part_peek b m s).1

theorem loop_rcvatmark (oob waits : Bool) (m : List Mbuf) (s : Books) (h : s.rcvatmark = false) :
    (loop true oob waits m s).rcvatmark = false := by
  induction m generalizing s with
  | nil => exact h
  | cons b m ih =>
    simp only [loop]
    split_ifs
    · exact h
    · exact h
    · exact (whole_peek b s).2.1
    · exact (whole_peek b s).2.1
    · exact ih _ (whole_peek b s).2.1
    · exact (part_peek b m s).2

theorem loop_mark (waits : Bool) (m : List Mbuf) (s : Books) :
    (loop true (oobFirst m) waits m s).rcvatmark = (s.rcvatmark && (s.resid == 0 || m.isEmpty)) := by
  cases m with
  | nil => simp [loop]
  | cons b m =>
    have ht : ((b.mtype == .oobdata) != oobFirst (b :: m)) = false := by simp [oobFirst]
    by_cases h0 : s.resid = 0
    · simp [loop, h0]
    · have hfalse : (s.rcvatmark && (s.resid == 0 || (b :: m).isEmpty)) = false := by simp [h0]
      rw [hfalse]
      simp only [loop, if_neg h0, ht, Bool.false_eq_true, if_false]
      split_ifs
      · exact (whole_peek b s).2.1
      · exact (whole_peek b s).2.1
      · exact loop_rcvatmark _ _ m _ (whole_peek b s).2.1
      · exact (part_peek b m s).2

/-- What was taken is what is gone from `uio_resid`. -/
theorem loop_resid (peek oob waits : Bool) (m : List Mbuf) (s : Books) :
    (loop peek oob waits m s).data.length + (loop peek oob waits m s).resid = s.data.length + s.resid := by
  have htake : ∀ b : Mbuf, (s : Books) → s.data.length + ((b.data.drop s.moff).take (amount b s)).length +
      (s.resid - amount b s) = s.data.length + s.resid := by
    intro b s
    have hlen := amount_le_len (b := b) (s := s)
    have hresid := amount_le_resid (b := b) (s := s)
    rw [List.length_take, List.length_drop]
    unfold Mbuf.len at hlen
    omega
  induction m generalizing s with
  | nil => rfl
  | cons b m ih =>
    have hwhole : (whole peek b s).data.length + (whole peek b s).resid = s.data.length + s.resid := by
      obtain ⟨hresid, hdata, -⟩ := whole_books peek b s
      rw [hresid, hdata, List.length_append]
      exact htake b s
    simp only [loop]
    split_ifs
    · rfl
    · rfl
    · exact hwhole
    · exact hwhole
    · exact (ih _).trans hwhole
    · obtain ⟨hresid, hdata, -⟩ := part_books peek b m s
      rw [hresid, hdata, List.length_append]
      exact htake b s

theorem loop_le (peek oob waits : Bool) (m : List Mbuf) (s : Books) : (loop peek oob waits m s).resid ≤ s.resid := by
  induction m generalizing s with
  | nil => exact Nat.le_refl _
  | cons b m ih =>
    have hwhole : (whole peek b s).resid ≤ s.resid := by
      rw [(whole_books peek b s).1]
      exact Nat.sub_le _ _
    simp only [loop]
    split_ifs
    · exact Nat.le_refl _
    · exact Nat.le_refl _
    · exact hwhole
    · exact hwhole
    · exact (ih _).trans hwhole
    · rw [(part_books peek b m s).1]
      exact Nat.sub_le _ _

/-- Where the books of a peek are before it has taken anything. -/
structure Fresh (s : Books) : Prop where
  moff : s.moff = 0
  resid : s.resid ≠ 0
  eor : s.eor = false
  slept : s.slept = false
  inside : s.so_oobmark = 0 ∨ s.offset < s.so_oobmark

theorem Fresh.amount_pos (h : Fresh s) (hb : b.data ≠ []) : 0 < amount b s := by
  have hlen : 0 < b.len := List.length_pos_iff.2 hb
  have hresid := h.resid
  have hin := h.inside
  simp only [amount, h.moff]
  split_ifs <;> omega

theorem amount_nil (hb : b.data = []) : amount b s = 0 ∧ b.len - s.moff = 0 := by
  have hlen : b.len = 0 := List.length_eq_zero_iff.2 hb
  have hle := amount_le_len (b := b) (s := s)
  omega

theorem Fresh.empty (h : Fresh s) (hb : b.data = []) (he : b.eor = false) :
    Fresh (whole true b s) ∧ (whole true b s).resid = s.resid := by
  obtain ⟨hresid, -, heor, hslept, hmoff⟩ := whole_books true b s
  obtain ⟨hmark, -, hoff⟩ := whole_peek b s
  obtain ⟨hzero, -⟩ := amount_nil (s := s) hb
  have hin := h.inside
  rw [hzero, Nat.sub_zero] at hresid
  refine ⟨⟨hmoff, hresid ▸ h.resid, by rw [heor, h.eor, he]; rfl, hslept.trans h.slept, ?_⟩, hresid⟩
  rw [hmark, hoff, hzero]
  split <;> omega

theorem Fresh.not_mark (h : Fresh s) (hb : b.data = []) : ¬atMark true s.so_oobmark (whole true b s) = true := by
  have hin := h.inside
  rw [atMark_peek, (amount_nil (s := s) hb).1]
  omega

theorem Fresh.taken (h : Fresh s) (ht : ¬((b.mtype == .oobdata) != oob) = true) (hb : b.data ≠ []) :
    (loop true oob waits (b :: m) s).resid ≠ s.resid := by
  have hpos := h.amount_pos hb
  have hle := amount_le_resid (b := b) (s := s)
  have hwhole : (whole true b s).resid < s.resid := by
    rw [(whole_books true b s).1]
    omega
  simp only [loop, if_neg h.resid, if_neg ht]
  split_ifs
  · exact Nat.ne_of_lt hwhole
  · exact Nat.ne_of_lt hwhole
  · exact Nat.ne_of_lt (Nat.lt_of_le_of_lt (loop_le true oob waits m _) hwhole)
  · rw [(part_books true b m s).1]
    omega

/-- A peek takes no byte exactly if the data is dry. -/
theorem loop_dry (oob waits : Bool) (m : List Mbuf) (s : Books) (h : Fresh s) :
    (loop true oob waits m s).resid = s.resid ↔ Dry oob m := by
  induction m generalizing s with
  | nil => exact iff_of_true rfl trivial
  | cons b m ih =>
    by_cases ht : ((b.mtype == .oobdata) != oob) = true
    · exact iff_of_true (by simp only [loop, if_neg h.resid, if_pos ht]) (.inl (bne_iff_ne.1 ht))
    · by_cases hb : b.data = []
      · have hw : amount b s = b.len - s.moff := by rw [(amount_nil hb).1, (amount_nil hb).2]
        have hdry : Dry oob (b :: m) ↔ b.eor = true ∨ Dry oob m := by
          have hsame : ¬(b.mtype == .oobdata) ≠ oob := fun hne => ht (bne_iff_ne.2 hne)
          rw [Dry, or_iff_right hsame, and_iff_right hb]
        rw [hdry]
        simp only [loop, if_neg h.resid, if_neg ht, if_pos hw]
        cases he : b.eor with
        | true =>
          have heor : (whole true b s).eor = true := by rw [(whole_books true b s).2.2.1, he, Bool.or_true]
          rw [if_pos (.inr heor)]
          refine iff_of_true ?_ (.inl rfl)
          exact (whole_books true b s).1.trans (by rw [(amount_nil (s := s) hb).1, Nat.sub_zero])
        | false =>
          obtain ⟨hfresh, hresid⟩ := h.empty hb he
          have hstop : ¬(atMark true s.so_oobmark (whole true b s) = true ∨ (whole true b s).eor = true) := by
            rintro (hmark | heor)
            · exact h.not_mark hb hmark
            · rw [hfresh.eor] at heor
              cases heor
          rw [if_neg hstop]
          split
          · rename_i hend
            exact iff_of_true hresid (.inr (hend.1 ▸ trivial))
          · rw [← hresid, ih _ hfresh]
            simp
      · refine iff_of_false (h.taken ht hb) ?_
        rintro (hne | ⟨hnil, -⟩)
        · exact ht (bne_iff_ne.2 hne)
        · exact hb hnil

/-- A peek ends without a byte, without MSG_EOR and without a sleep exactly over barren data that
it does not wait behind. -/
theorem loop_barren (oob waits : Bool) (m : List Mbuf) (s : Books) (h : Fresh s) :
    (loop true oob waits m s).resid = s.resid ∧ (loop true oob waits m s).eor = false ∧
        (loop true oob waits m s).slept = false ↔
      Barren oob m ∧ ¬(waits = true ∧ m ≠ [] ∧ ∀ b ∈ m, (b.mtype == .oobdata) = oob) := by
  induction m generalizing s with
  | nil => exact iff_of_true ⟨rfl, h.eor, h.slept⟩ ⟨trivial, fun hw => hw.2.1 rfl⟩
  | cons b m ih =>
    by_cases ht : ((b.mtype == .oobdata) != oob) = true
    · have hne := bne_iff_ne.1 ht
      refine iff_of_true ?_ ⟨.inl hne, fun hw => hne (hw.2.2 b List.mem_cons_self)⟩
      simp only [loop, if_neg h.resid, if_pos ht]
      exact ⟨trivial, h.eor, h.slept⟩
    · have hsame : (b.mtype == .oobdata) = oob := by simpa using ht
      by_cases hb : b.data = []
      · have hw : amount b s = b.len - s.moff := by rw [(amount_nil hb).1, (amount_nil hb).2]
        have hbarren : Barren oob (b :: m) ↔ b.eor = false ∧ Barren oob m := by
          rw [Barren, or_iff_right (fun hne => hne hsame), and_iff_right hb]
        rw [hbarren]
        simp only [loop, if_neg h.resid, if_neg ht, if_pos hw]
        cases he : b.eor with
        | true =>
          have heor : (whole true b s).eor = true := by rw [(whole_books true b s).2.2.1, he, Bool.or_true]
          rw [if_pos (.inr heor)]
          refine iff_of_false (fun hend => ?_) (fun hbar => by simp at hbar)
          rw [heor] at hend
          simp at hend
        | false =>
          obtain ⟨hfresh, hresid⟩ := h.empty hb he
          have hstop : ¬(atMark true s.so_oobmark (whole true b s) = true ∨ (whole true b s).eor = true) := by
            rintro (hmark | heor)
            · exact h.not_mark hb hmark
            · rw [hfresh.eor] at heor
              cases heor
          rw [if_neg hstop]
          have hmem : (∀ d ∈ b :: m, (d.mtype == .oobdata) = oob) ↔ ∀ d ∈ m, (d.mtype == .oobdata) = oob := by
            rw [List.forall_mem_cons, and_iff_right hsame]
          by_cases hend : m = [] ∧ 0 < (whole true b s).resid ∧ waits = true
          · -- the sleep
            rw [if_pos hend, hmem, hend.1]
            refine iff_of_false (by simp) fun hbar => hbar.2 ⟨hend.2.2, by simp, by simp⟩
          · rw [if_neg hend, ← hresid, ih _ hfresh, hmem, and_iff_right rfl]
            refine and_congr_right fun _ => not_congr (and_congr_right fun hwaits => ?_)
            refine and_congr_left fun _ => iff_of_true ?_ (by simp)
            rintro rfl
            exact hend ⟨rfl, Nat.pos_of_ne_zero hfresh.resid, hwaits⟩
      · refine iff_of_false (fun hend => h.taken ht hb hend.1) ?_
        rintro ⟨hne | ⟨hnil, -⟩, -⟩
        · exact hne hsame
        · exact hb hnil

/-! ## A pass -/

section Pass
variable {so : Sock} {first : Mbuf} {rest : List Mbuf} {next : List (List Mbuf)} {flags : Flags}

/-- The books before the loop. -/
def booksOf (req : Req) (so : Sock) (d : List Mbuf) (eor : Bool) (counters : Counters) : Books :=
  ⟨d, 0, 0, so.so_oobmark, so.rcvatmark, req.resid, [], eor, false, counters⟩

theorem booksOf_rel (req : Req) (so : Sock) (d : List Mbuf) (eor : Bool) (n n' : Counters) :
    Rel (booksOf req so d eor n) (booksOf req so d eor n') := by
  refine ⟨rfl, rfl, rfl, rfl, rfl, rfl, rfl, rfl, ?_⟩
  rcases Nat.eq_zero_or_pos so.so_oobmark with h | h
  · exact .inl ⟨h, rfl⟩
  · exact .inr h

theorem booksOf_fresh (h : req.resid ≠ 0) (so : Sock) (d : List Mbuf) (n : Counters) :
    Fresh (booksOf req so d false n) :=
  ⟨rfl, h, rfl, rfl, Nat.eq_zero_or_pos so.so_oobmark⟩

/-- How a pass ends that has `c` of the control mbufs and `s` of the data. -/
def retOf (peek : Bool) (pr : Protosw) (req : Req) (flags : Flags) (addr : Option (List Byte)) (c : Control)
    (s : Books) : Ret where
  error := if s.slept then none else c.error
  data := if peek ∧ req.mp0 then [] else s.data
  addr := addr
  control := c.lens
  flags := if s.slept then none else some ⟨s.eor, flags.trunc || !s.m.isEmpty && pr.atomic, flags.oob⟩

/-- Nothing was taken, and the pass is repeated. -/
def Repeats (pr : Protosw) (req : Req) (so : Sock) (c : Control) (s : Books) : Prop :=
  pr.addr = false ∧ c.any = false ∧ req.resid ≠ 0 ∧ s.resid = req.resid ∧ s.eor = false ∧ s.slept = false ∧
    so.cantrcvmore = false

theorem finish_ret (peek : Bool) (flags : Flags) (next : List (List Mbuf)) (addr : Option (List Byte))
    (h : ¬Repeats pr req so c s) :
    ∃ so', finish peek pr req flags so next addr c s = .ret so' (retOf peek pr req flags addr c s) ∧
      (peek = true → so' = { so with so_oobmark := s.so_oobmark, rcvatmark := s.rcvatmark }) := by
  simp only [finish, retOf]
  cases hs : s.slept with
  | true => exact ⟨_, rfl, by rintro rfl; rfl⟩
  | false =>
    have hno : ¬((if pr.addr = true ∨ c.any = true then 0 else req.resid) = s.resid ∧
        (if pr.addr = true ∨ c.any = true then 0 else req.resid) ≠ 0 ∧ ¬s.eor = true ∧ ¬so.cantrcvmore = true) := by
      intro hyes
      refine h ?_
      simp only [Repeats, hs]
      split_ifs at hyes with hor
      · exact absurd rfl hyes.2.1
      · simp only [not_or, Bool.not_eq_true] at hor hyes
        exact ⟨hor.1, hor.2, hyes.2.1, hyes.1.symm, hyes.2.2.1, trivial, hyes.2.2.2⟩
    simp only [Bool.false_eq_true, if_false, if_neg hno]
    exact ⟨_, rfl, by rintro rfl; rfl⟩

theorem finish_restart (flags : Flags) (next : List (List Mbuf)) (addr : Option (List Byte)) (h : Repeats pr req so c s) :
    ∃ flags', flags'.eor = false ∧ finish true pr req flags so next addr c s =
      .restart { so with so_oobmark := s.so_oobmark, rcvatmark := s.rcvatmark } flags' := by
  obtain ⟨haddr, hany, hresid, hsame, heor, hslept, hcant⟩ := h
  refine ⟨{ flags with eor := false, trunc := flags.trunc || !s.m.isEmpty && pr.atomic }, rfl, ?_⟩
  simp [finish, haddr, hany, hresid, hsame, heor, hslept, hcant]

theorem take_peek (pr : Protosw) (req : Req) (flags : Flags) (so : Sock) (first : Mbuf) (rest : List Mbuf)
    (next : List (List Mbuf)) :
    ∃ c t, c = (control true pr req.mem 1 (chainOf pr first rest) ⟨[], req.controlp, false, none, so.so_rcv.toCounters⟩).2 ∧
      t = loop true (oobFirst (dataOf (chainOf pr first rest))) (waitsFor pr req so next) (dataOf (chainOf pr first rest))
        (booksOf req so (dataOf (chainOf pr first rest)) flags.eor c.counters) ∧
      take true pr req flags so first rest next =
        finish true pr req { flags with oob := flags.oob || oobFirst (dataOf (chainOf pr first rest)) } so next
          (if pr.addr ∧ req.paddr then m_copy (req.mem 0) first else none) c t := by
  obtain ⟨hchain, herror, -⟩ := control_peek pr req.mem 1 (chainOf pr first rest)
    ⟨[], req.controlp, false, none, so.so_rcv.toCounters⟩ rfl
  refine ⟨_, _, rfl, rfl, ?_⟩
  simp only [take, not_true_eq_false, and_false, if_false, if_true]
  simp only [chainOf] at hchain herror
  simp only [chainOf, hchain, herror, if_true]
  rfl

theorem take_consume (pr : Protosw) (req : Req) (flags : Flags) (so : Sock) (first : Mbuf) (rest : List Mbuf)
    (next : List (List Mbuf)) (hr : req.controlp = true → Externalized pr (controls (chainOf pr first rest))) :
    ∃ c n t, c = (control false pr req.mem 1 (chainOf pr first rest) ⟨[], req.controlp, false, none, n⟩).2 ∧
      t = loop false (oobFirst (dataOf (chainOf pr first rest))) (waitsFor pr req so next) (dataOf (chainOf pr first rest))
        (booksOf req so (dataOf (chainOf pr first rest)) flags.eor c.counters) ∧
      take false pr req flags so first rest next =
        finish false pr req { flags with oob := flags.oob || oobFirst (dataOf (chainOf pr first rest)) } so next
          (if pr.addr ∧ req.paddr then some first.data else none) c t := by
  obtain ⟨n, hn⟩ : ∃ n, (if pr.addr ∧ ¬false = true then sbfree so.so_rcv.toCounters first else so.so_rcv.toCounters) = n :=
    ⟨_, rfl⟩
  obtain ⟨hchain, herror, -⟩ := (control_consume pr req.mem 1 (chainOf pr first rest)
    ⟨[], req.controlp, false, none, n⟩ rfl).1 hr
  refine ⟨_, n, _, rfl, rfl, ?_⟩
  simp only [take, hn]
  simp only [chainOf] at hchain herror
  simp only [chainOf, hchain, herror, if_true, Bool.false_eq_true, if_false]
  rfl

theorem repeats_iff {n : Counters} {chain : List Mbuf} {c : Control} {t : Books}
    (hany : c.any = true ↔ req.controlp = true ∧ controls chain ≠ [])
    (ht : t = loop true (oobFirst (dataOf chain)) (waitsFor pr req so next) (dataOf chain)
      (booksOf req so (dataOf chain) false n)) :
    Repeats pr req so c t ↔ ¬Fruit pr req so chain next := by
  have hany' : c.any = false ↔ ¬(req.controlp = true ∧ controls chain ≠ []) := by rw [← hany, Bool.not_eq_true]
  simp only [Repeats, Fruit, not_or, hany', ← Bool.not_eq_true, not_not]
  by_cases hresid : req.resid = 0
  · exact iff_of_false (fun h => h.2.2.1 hresid) (fun h => h.2.2.1 hresid)
  · have hbarren := loop_barren (oobFirst (dataOf chain)) (waitsFor pr req so next) (dataOf chain) _
      (booksOf_fresh hresid so (dataOf chain) n)
    rw [← ht] at hbarren
    simp only [← Bool.not_eq_true] at hbarren
    have hsame : (booksOf req so (dataOf chain) false n).resid = req.resid := rfl
    rw [hsame] at hbarren
    tauto

/-- Whatever the flags and SS_RCVATMARK are, a peek at a record of which nothing comes does not end. -/
theorem peek_repeats (h : ¬Fruit pr req so (chainOf pr first rest) next) (hf : flags.eor = false) :
    ∃ mark flags', flags'.eor = false ∧
      take true pr req flags so first rest next = .restart { so with rcvatmark := mark } flags' := by
  obtain ⟨c, t, hc, ht, hrun⟩ := take_peek pr req flags so first rest next
  obtain ⟨-, -, hany, -⟩ := control_peek pr req.mem 1 (chainOf pr first rest)
    ⟨[], req.controlp, false, none, so.so_rcv.toCounters⟩ rfl
  rw [← hc] at hany
  rw [hf] at ht
  have hrepeats : Repeats pr req so c t := (repeats_iff (by simpa using hany) ht).2 h
  obtain ⟨flags', hf', hfinish⟩ := finish_restart
    { flags with oob := flags.oob || oobFirst (dataOf (chainOf pr first rest)) } next
    (if pr.addr ∧ req.paddr then m_copy (req.mem 0) first else none) hrepeats
  refine ⟨t.rcvatmark, flags', hf', ?_⟩
  rw [hrun, hfinish]
  have hmark : t.so_oobmark = so.so_oobmark := by
    rw [ht]
    exact loop_oobmark _ _ _ _
  rw [hmark]

theorem take_unexternalized (flags : Flags) (so : Sock) (first : Mbuf) (rest : List Mbuf) (next : List (List Mbuf))
    (hp : req.controlp = true) (hr : ¬Externalized pr (controls (chainOf pr first rest))) :
    ∃ so' r, take false pr req flags so first rest next = .ret so' r ∧ r.error ≠ none := by
  obtain ⟨n, hn⟩ : ∃ n, (if pr.addr ∧ ¬false = true then sbfree so.so_rcv.toCounters first else so.so_rcv.toCounters) = n :=
    ⟨_, rfl⟩
  obtain ⟨herror, hany⟩ := (control_consume pr req.mem 1 (chainOf pr first rest)
    ⟨[], req.controlp, false, none, n⟩ rfl).2 hp hr
  simp only [take, hn]
  simp only [chainOf] at herror hany
  generalize control false pr req.mem 1 (if pr.addr then rest else first :: rest)
    ⟨[], req.controlp, false, none, n⟩ = out at herror hany
  obtain ⟨chain, c⟩ := out
  simp only [if_neg herror]
  obtain ⟨so', hrun, -⟩ := finish_ret false { flags with oob := flags.oob || chain.head?.any (·.mtype == .oobdata) } next
    (if pr.addr = true ∧ req.paddr = true then some first.data else none)
    (show ¬Repeats pr req so c (booksOf req so chain flags.eor c.counters) from fun h => absurd (hany.symm.trans h.2.1) (by simp))
  exact ⟨so', _, hrun, herror⟩

/-- The two uses return the same exactly if the address, the control mbufs and the data agree. -/
theorem retOf_eq_iff {c c' : Control} {t t' : Books} (hend : SameEnd t t') (he : c.error = none) (he' : c'.error = none)
    (addr addr' : Option (List Byte)) :
    retOf false pr req flags addr' c' t' = retOf true pr req flags addr c t ↔
      addr' = addr ∧ c'.lens = c.lens ∧ (req.mp0 = true → t.data = []) := by
  have hm : t'.m.isEmpty = t.m.isEmpty := by rw [Bool.eq_iff_iff, List.isEmpty_iff, List.isEmpty_iff, hend.m]
  constructor
  · intro h
    refine ⟨congrArg Ret.addr h, congrArg Ret.control h, fun hmp => ?_⟩
    have hdata := congrArg Ret.data h
    simp only [retOf, hmp, hend.data] at hdata
    simpa using hdata
  · rintro ⟨haddr, hlens, hdata⟩
    simp only [retOf, hend.data, hend.eor, hend.slept, hm, he, he', haddr, hlens, Ret.mk.injEq, true_and, and_true]
    cases hmp : req.mp0 with
    | false => simp
    | true => simp [hdata hmp]

/-- A peek at a record of which something comes ends with that pass, and leaves the socket as it was
but for SS_RCVATMARK. -/
theorem peek_ends (flags : Flags) (hf : flags.eor = false) (so : Sock) (first : Mbuf) (rest : List Mbuf)
    (next : List (List Mbuf)) (hfruit : Fruit pr req so (chainOf pr first rest) next) :
    ∃ c t, c = (control true pr req.mem 1 (chainOf pr first rest) ⟨[], req.controlp, false, none, so.so_rcv.toCounters⟩).2 ∧
      t = loop true (oobFirst (dataOf (chainOf pr first rest))) (waitsFor pr req so next) (dataOf (chainOf pr first rest))
        (booksOf req so (dataOf (chainOf pr first rest)) false c.counters) ∧ c.error = none ∧ ¬Repeats pr req so c t ∧
      take true pr req flags so first rest next = .ret
        { so with rcvatmark := so.rcvatmark && (req.resid == 0 || (dataOf (chainOf pr first rest)).isEmpty) }
        (retOf true pr req { flags with oob := flags.oob || oobFirst (dataOf (chainOf pr first rest)) }
          (if pr.addr ∧ req.paddr then m_copy (req.mem 0) first else none) c t) := by
  obtain ⟨c, t, hc, ht, hrun⟩ := take_peek pr req flags so first rest next
  obtain ⟨-, herror, hany, -⟩ := control_peek pr req.mem 1 (chainOf pr first rest)
    ⟨[], req.controlp, false, none, so.so_rcv.toCounters⟩ rfl
  rw [← hc] at herror hany
  rw [hf] at ht
  have hno : ¬Repeats pr req so c t := by
    rw [repeats_iff (by simpa using hany) ht]
    exact fun h => h hfruit
  obtain ⟨so1, hret, hso1⟩ := finish_ret true
    { flags with oob := flags.oob || oobFirst (dataOf (chainOf pr first rest)) } next
    (if pr.addr ∧ req.paddr then m_copy (req.mem 0) first else none) hno
  refine ⟨c, t, hc, ht, herror, hno, ?_⟩
  have hmark : t.so_oobmark = so.so_oobmark := by rw [ht]; exact loop_oobmark _ _ _ _
  have hat : t.rcvatmark = (so.rcvatmark && (req.resid == 0 || (dataOf (chainOf pr first rest)).isEmpty)) := by
    rw [ht]
    exact loop_mark _ _ _
  rw [hrun, hret, hso1 rfl, hmark, hat]

/-- A peek at a record of which something comes, and a receive of it that can pass on the rights. -/
theorem both (flags : Flags) (hf : flags.eor = false) (so : Sock) (first : Mbuf) (rest : List Mbuf) (next : List (List Mbuf))
    (hfruit : Fruit pr req so (chainOf pr first rest) next)
    (hr : req.controlp = true → Externalized pr (controls (chainOf pr first rest))) :
    ∃ r r' so', take true pr req flags so first rest next = .ret
        { so with rcvatmark := so.rcvatmark && (req.resid == 0 || (dataOf (chainOf pr first rest)).isEmpty) } r ∧
      take false pr req flags so first rest next = .ret so' r' ∧
      (r' = r ↔
        (pr.addr = true → req.paddr = true → req.mem 0 = true ∧ first.data ≠ []) ∧
        (req.controlp = true → Copied req.mem 1 (controls (chainOf pr first rest))) ∧
        (req.mp0 = true → req.resid = 0 ∨
          Dry (oobFirst (dataOf (chainOf pr first rest))) (dataOf (chainOf pr first rest)))) := by
  obtain ⟨c, t, hc, ht, herror, hno, hrun⟩ := peek_ends flags hf so first rest next hfruit
  obtain ⟨c', n, t', hc', ht', hrun'⟩ := take_consume pr req flags so first rest next hr
  obtain ⟨-, -, hany, hlens, hcopied, hmissing⟩ := control_peek pr req.mem 1 (chainOf pr first rest)
    ⟨[], req.controlp, false, none, so.so_rcv.toCounters⟩ rfl
  obtain ⟨-, herror', hany', hlens'⟩ := (control_consume pr req.mem 1 (chainOf pr first rest)
    ⟨[], req.controlp, false, none, n⟩ rfl).1 hr
  rw [← hc] at hany hlens hcopied hmissing
  rw [← hc'] at herror' hany' hlens'
  rw [hf] at ht'
  have hend : SameEnd t t' := by
    rw [ht, ht']
    exact loop_same _ _ _ (booksOf_rel req so _ false c.counters c'.counters)
  have hno' : ¬Repeats pr req so c' t' := by
    have hsame : c'.any = c.any := by rw [Bool.eq_iff_iff, hany, hany']
    simp only [Repeats, hsame, hend.resid, hend.eor, hend.slept]
    exact hno
  generalize { flags with oob := flags.oob || oobFirst (dataOf (chainOf pr first rest)) } = fl at hrun hrun'
  obtain ⟨so', hret', -⟩ := finish_ret false fl next (if pr.addr ∧ req.paddr then some first.data else none) hno'
  refine ⟨_, retOf false pr req fl (if pr.addr ∧ req.paddr then some first.data else none) c' t', so', hrun,
    hrun'.trans hret', ?_⟩
  rw [retOf_eq_iff hend herror herror']
  refine and_congr ?_ (and_congr ?_ (imp_congr_right fun _ => ?_))
  · -- the address
    by_cases ha : pr.addr = true ∧ req.paddr = true
    · rw [if_pos ha, if_pos ha]
      by_cases hcopy : req.mem 0 = true ∧ first.data ≠ []
      · exact iff_of_true (m_copy_some hcopy).symm fun _ _ => hcopy
      · rw [m_copy_none hcopy]
        exact iff_of_false (by simp) fun h => hcopy (h ha.1 ha.2)
    · rw [if_neg ha, if_neg ha]
      exact iff_of_true rfl fun h1 h2 => absurd ⟨h1, h2⟩ ha
  · -- the control mbufs
    by_cases hp : req.controlp = true
    · rw [hlens', if_pos hp]
      by_cases hcopy : Copied req.mem 1 (controls (chainOf pr first rest))
      · exact iff_of_true (hcopied hp hcopy).symm fun _ => hcopy
      · have hlt := hmissing hp hcopy
        refine iff_of_false (fun heq => ?_) fun h => hcopy (h hp)
        rw [← heq] at hlt
        simp at hlt
    · rw [hlens', if_neg hp]
      exact iff_of_true (hlens (by simpa using hp)).symm fun h => absurd h hp
  · -- the data
    have hsum := loop_resid true (oobFirst (dataOf (chainOf pr first rest))) (waitsFor pr req so next)
      (dataOf (chainOf pr first rest)) (booksOf req so (dataOf (chainOf pr first rest)) false c.counters)
    rw [← ht] at hsum
    have hnil : t.data = [] ↔ t.resid = req.resid := by
      rw [← List.length_eq_zero_iff]
      simp only [booksOf, List.length_nil, Nat.zero_add] at hsum
      omega
    rw [hnil]
    by_cases hresid : req.resid = 0
    · refine iff_of_true ?_ (.inl hresid)
      have hle := loop_le true (oobFirst (dataOf (chainOf pr first rest))) (waitsFor pr req so next)
        (dataOf (chainOf pr first rest)) (booksOf req so (dataOf (chainOf pr first rest)) false c.counters)
      rw [← ht] at hle
      simp only [booksOf] at hle
      omega
    · rw [or_iff_right hresid, ← loop_dry _ (waitsFor pr req so next) _ _ (booksOf_fresh hresid so _ c.counters), ← ht]
      rfl

end Pass

/-! ## Whole calls -/

/-- Out-of-band data, and what is returned without looking at the queue, is the same for both uses. -/
theorem receiveOob_same (req : Req) (so : Sock) :
    (receiveOob true req so).1 = so ∧ (receiveOob false req so).2 = (receiveOob true req so).2 := by
  simp only [receiveOob, rcvoob]
  cases so.pcb with
  | none => exact ⟨rfl, rfl⟩
  | some tp =>
    dsimp only
    split_ifs <;> exact ⟨rfl, rfl⟩

theorem block_same (pr : Protosw) (req : Req) (so : Sock) :
    (∃ so' e, block true pr req so = some (so, e) ∧ block false pr req so = some (so', e)) ∨
      block true pr req so = none ∧ block false pr req so = none := by
  simp only [block]
  cases so.so_error <;> split_ifs <;> simp_all

/-- Whether a receive blocks does not depend on SS_RCVATMARK. -/
theorem block_mark (pr : Protosw) (req : Req) (so : Sock) (b : Bool) (h : block true pr req so = none) :
    block true pr req { so with rcvatmark := b } = none := by
  simp only [block] at h ⊢
  cases herror : so.so_error <;> simp only [herror] at h ⊢ <;> split_ifs at h ⊢ <;> simp_all

/-- A call that comes to take something from the record `first :: rest`. -/
structure Starts (pr : Protosw) (req : Req) (so : Sock) (first : Mbuf) (rest : List Mbuf) (next : List (List Mbuf)) :
    Prop where
  oob : req.oob = false
  unlocked : so.so_rcv.locked = false
  block : block true pr req so = none
  recs : so.so_rcv.recs = (first :: rest) :: next

section Calls
variable {so : Sock} {first : Mbuf} {rest : List Mbuf} {next : List (List Mbuf)}

theorem Starts.mark (h : Starts pr req so first rest next) (b : Bool) :
    Starts pr req { so with rcvatmark := b } first rest next :=
  ⟨h.oob, h.unlocked, block_mark pr req so b h.block, h.recs⟩

theorem Starts.pass (h : Starts pr req so first rest next) (peek : Bool) (flags : Flags) :
    pass peek pr req flags so = take peek pr req flags so first rest next := by
  have hblock : Soreceive.block peek pr req so = none := by
    rcases block_same pr req so with ⟨so', e, htrue, -⟩ | ⟨htrue, hfalse⟩
    · rw [h.block] at htrue
      cases htrue
    · cases peek
      · exact hfalse
      · exact htrue
  simp only [Soreceive.pass, h.unlocked, hblock, h.recs, Bool.false_eq_true, if_false]

/-- A peek at a record of which nothing comes never returns. -/
theorem Starts.never (h : Starts pr req so first rest next) (hfruit : ¬Fruit pr req so (chainOf pr first rest) next)
    (fuel : Nat) (flags : Flags) (hf : flags.eor = false) : soreceive true pr req fuel flags so = none := by
  induction fuel generalizing so flags with
  | zero => rfl
  | succ fuel ih =>
    obtain ⟨mark, flags', hf', hrun⟩ := peek_repeats hfruit hf
    simp only [soreceive, h.oob, Bool.false_eq_true, if_false, h.pass, hrun]
    exact ih (h.mark mark) hfruit flags' hf'

theorem Starts.returns (h : Starts pr req so first rest next) {peek : Bool} {so1 so' : Sock} {r1 r : Ret}
    (hrun : take peek pr req ⟨false, false, false⟩ so first rest next = .ret so1 r1) :
    Returns peek pr req so so' r ↔ so1 = so' ∧ r1 = r := by
  have hcall : ∀ fuel, soreceive peek pr req (fuel + 1) ⟨false, false, false⟩ so = some (so1, r1) := by
    intro fuel
    simp only [soreceive, h.oob, Bool.false_eq_true, if_false, h.pass, hrun]
  constructor
  · rintro ⟨fuel, hret⟩
    cases fuel with
    | zero => cases hret
    | succ fuel =>
      rw [hcall] at hret
      cases hret
      exact ⟨rfl, rfl⟩
  · rintro ⟨rfl, rfl⟩
    exact ⟨1, hcall 0⟩

/-- A peek into a record does its work exactly if the record is clean. -/
theorem Starts.peeks (h : Starts pr req so first rest next) :
    Peeks pr req so ↔ Clean pr req so first (chainOf pr first rest) next := by
  by_cases hfruit : Fruit pr req so (chainOf pr first rest) next
  · by_cases hr : req.controlp = true → Externalized pr (controls (chainOf pr first rest))
    · obtain ⟨r, r', so', hpeek, hconsume, hsame⟩ := both ⟨false, false, false⟩ rfl so first rest next hfruit hr
      simp only [Peeks, h.returns hpeek, h.returns hconsume]
      have hmark : { so with rcvatmark := so.rcvatmark && (req.resid == 0 || (dataOf (chainOf pr first rest)).isEmpty) } = so ↔
          (so.rcvatmark = true → req.resid = 0 ∨ dataOf (chainOf pr first rest) = []) := by
        cases so with
        | mk rcv lowat oobmark rcvatmark cantrcvmore connected nbio error pcb =>
          cases rcvatmark <;> simp
      constructor
      · rintro ⟨r1, ⟨hso, rfl⟩, so1, -, heq⟩
        obtain ⟨haddr, hcopies, hmp⟩ := hsame.1 heq
        exact ⟨haddr, hcopies, hr, hmark.1 hso, hmp, hfruit⟩
      · intro hclean
        exact ⟨r, ⟨hmark.2 hclean.mark, rfl⟩, so', rfl, hsame.2 ⟨hclean.addr, hclean.copies, hclean.mp⟩⟩
    · -- the receive fails where the peek did not
      refine iff_of_false ?_ fun hclean => hr hclean.rights
      rintro ⟨r, hret, so', hret'⟩
      obtain ⟨hp, hnot⟩ := Classical.not_imp.1 hr
      obtain ⟨so1, r1, hrun, herror⟩ := take_unexternalized ⟨false, false, false⟩ so first rest next hp hnot
      obtain ⟨c, t, -, -, hnone, -, hpeek⟩ := peek_ends ⟨false, false, false⟩ rfl so first rest next hfruit
      obtain ⟨-, rfl⟩ := (h.returns hrun).1 hret'
      obtain ⟨-, heq⟩ := (h.returns hpeek).1 hret
      refine herror ?_
      rw [← heq]
      simp only [retOf, hnone, ite_self]
  · refine iff_of_false ?_ fun hclean => hfruit hclean.fruit
    rintro ⟨r, ⟨fuel, hret⟩, -⟩
    rw [h.never hfruit fuel _ rfl] at hret
    cases hret

end Calls

/-- A call that ends with its first pass. -/
theorem returns_of {pr : Protosw} {req : Req} {so so' : Sock} {r : Ret} {peek : Bool} (ho : req.oob = false)
    (h : pass peek pr req ⟨false, false, false⟩ so = .ret so' r) : Returns peek pr req so so' r :=
  ⟨1, by simp only [soreceive, ho, h, Bool.false_eq_true, if_false]⟩

/-- TCP. -/
def tcp : Protosw := ⟨false, false, true, none⟩

/-- A connection at its out-of-band mark, with a byte behind it. -/
def marked : Sock where
  so_rcv := ⟨⟨1, 128⟩, 8192, 16384, false, [[⟨[7], 0, .data, false, none, some 1⟩]]⟩
  sb_lowat := 1
  so_oobmark := 0
  rcvatmark := true
  cantrcvmore := false
  connected := true
  nbio := false
  so_error := none
  pcb := none

/-- A receive of one byte with MSG_DONTWAIT. -/
def oneByte : Req where
  resid := 1
  paddr := false
  mp0 := false
  controlp := false
  oob := false
  dontwait := true
  waitall := false
  mem := fun _ => true
  wakeup := .EWOULDBLOCK

end BsdKernel.Soreceive
