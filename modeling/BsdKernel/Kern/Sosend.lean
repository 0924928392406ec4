import BsdKernel.Kern.Sockbuf
import BsdKernel.Lib.Signed
import BsdKernel.Lib.Trace
/-!
# Sending on a socket

`sosend` of `kern/uipc_socket.c` for data described by a `uio`, with the options
of `sosetopt` that set the limits of the send buffer. The model goes from one
place of the source to the next: the lock, the tests at the head of the outer
loop, one mbuf of the message, the call of the protocol. What the rest of the
kernel does meanwhile comes from outside: the state of the socket, how full its
buffer is, options set, the end of a sleep, clusters, faults, the protocol's
error.

`sosend_iff` says in which calls every iteration of the outer loop makes
progress and what the protocol got is what was consumed.
-/

namespace BsdKernel.Sosend

open BsdKernel.Lib BsdKernel.Socket

def MCLBYTES : Nat := 1024

/-- `MLEN - sizeof (struct pkthdr)`. -/
def MHLEN : Nat := MLEN - 8

def MINCLSIZE : Nat := MHLEN + MLEN

def SB_MAX : Nat := 256 * 1024

inductive Errno where
  | EPIPE | ENOTCONN | EDESTADDRREQ | EMSGSIZE | EWOULDBLOCK | EFAULT
  /-- `so_error`, the error of a sleep, or that of the protocol -/
  | other (errno : Nat)
  deriving DecidableEq, Repr

/-! ## The limits of the send buffer -/

/-- The limits of `so_snd`: `u_long`s, and a `long`. -/
structure Snd where
  hiwat : Nat
  mbmax : Nat
  lowat : Int
  deriving DecidableEq

/-- The options of the send buffer, with the `int` passed. -/
inductive Opt where
  | sndbuf (val : Int32)
  | sndlowat (val : Int32)

/-- `sbreserve`, `none` where it returns 0. The low-water mark is compared as `u_long`. -/
def sbreserve (cc : Nat) (sb : Snd) : Option Snd :=
  if SB_MAX * MCLBYTES / (MSIZE + MCLBYTES) < cc then none
  else some ⟨cc, min (cc * 2) SB_MAX, if (cc : Int) < sb.lowat % 2 ^ 32 then cc else sb.lowat⟩

/-- `sosetopt`, `none` where it fails with ENOBUFS. -/
def sosetopt (sb : Snd) : Opt → Option Snd
  | .sndbuf val => sbreserve val.toUInt32.toNat sb
  | .sndlowat val => some { sb with lowat := val.toInt }

/-- The buffer after some options, those refused included. -/
def setopts (sb : Snd) (opts : List Opt) : Snd := opts.foldl (fun sb opt => (sosetopt sb opt).getD sb) sb

/-- `sbspace`, the buffer holding `cc` characters in `mbcnt` bytes of mbufs. -/
def sbspace (sb : Snd) (cc mbcnt : Nat) : Int := min (wrap32 (sb.hiwat - cc)) (wrap32 (sb.mbmax - mbcnt))

/-! ## A call -/

/-- The arguments of a call and what it reads of the protocol. -/
structure Call where
  /-- The bytes of the `uio`, `uio_resid` of them -/
  data : List Byte
  resid_int : data.length < 2 ^ 31
  addr : Bool
  /-- `m_len` of the control mbuf -/
  control : Option Nat
  /-- MSG_OOB -/
  oob : Bool
  /-- MSG_EOR -/
  eor : Bool
  /-- PR_ATOMIC -/
  atomic : Bool
  /-- PR_CONNREQUIRED -/
  connrequired : Bool
  max_hdr : Nat
  max_hdr_lt : max_hdr < MCLBYTES

/-- An mbuf of the message: `m_data` in its storage, the bytes there, and the size of the storage. -/
structure Seg where
  off : Nat
  data : List Byte
  size : Nat
  deriving DecidableEq

/-- What one PRU_SEND or PRU_SENDOOB passes to the protocol. -/
structure Packet where
  oob : Bool
  eor : Bool
  control : Option Nat
  /-- `m_pkthdr.len` -/
  len : Nat
  chain : List Seg
  deriving DecidableEq

/-- The bytes of a chain. -/
def bytes (chain : List Seg) : List Byte := chain.flatMap Seg.data

/-- What a step sees of the rest of the kernel. Each place reads its own part. -/
structure Env where
  /-- The error of `sblock` -/
  lock : Option Errno
  /-- Options set since the last look at the buffer -/
  opts : List Opt
  cc : Nat
  mbcnt : Nat
  cantsendmore : Bool
  so_error : Option Errno
  connected : Bool
  confirming : Bool
  nbio : Bool
  /-- The error of `sbwait` -/
  wait : Option Errno
  /-- MCLGET finds a cluster -/
  cluster : Bool
  /-- The bytes `uiomove` moves before it meets one it cannot read -/
  fault : Option Nat
  /-- The error of `pr_usrreq` -/
  send : Option Errno

inductive Place where
  /-- `restart` -/
  | restart
  /-- the head of the outer loop -/
  | test
  /-- the body of the innermost loop -/
  | fill
  /-- the call of `pr_usrreq` -/
  | send
  | out (error : Option Errno)
  deriving DecidableEq

/-- A call under way. `room`, `passed` and `idle` are not in the source: the `space` the iteration of
the outer loop began with, the bytes it has passed to the protocol, and whether one has gone round
without passing any. -/
structure State where
  place : Place
  snd : Snd
  /-- The bytes of the `uio` not consumed -/
  left : List Byte
  control : Option Nat
  space : Int
  top : List Seg
  pktlen : Nat
  eor : Bool
  sent : List Packet
  room : Int
  passed : Nat
  idle : Bool
  deriving DecidableEq

/-- `clen`. -/
def State.clen (s : State) : Nat := s.control.getD 0

/-- A call before its first step. -/
def start (c : Call) (sb : Snd) : State where
  place := .restart
  snd := sb
  left := c.data
  control := c.control
  space := 0
  top := []
  pktlen := 0
  eor := false
  sent := []
  room := 0
  passed := 0
  idle := false

variable (c : Call)

/-! ## The steps -/

/-- The errors found at the head of the outer loop. -/
def refuses (sb : Snd) (s : State) (e : Env) : Option Errno :=
  if e.cantsendmore then some .EPIPE
  else if e.so_error ≠ none then e.so_error
  else if ¬e.connected ∧ c.connrequired ∧ ¬e.confirming ∧ ¬(s.left = [] ∧ s.clen ≠ 0) then some .ENOTCONN
  else if ¬e.connected ∧ ¬c.connrequired ∧ ¬c.addr then some .EDESTADDRREQ
  else if c.atomic ∧ sb.hiwat < s.left.length ∨ sb.hiwat < s.clen then some .EMSGSIZE
  else none

/-- The space of the buffer at the head of the outer loop. -/
def spaceOf (sb : Snd) (e : Env) : Int := wrap32 (sbspace sb e.cc e.mbcnt + if c.oob then 1024 else 0)

/-- The test for a sleep. -/
def sleeps (sb : Snd) (s : State) (e : Env) : Prop :=
  spaceOf c sb e < wrap32 (s.left.length + s.clen) ∧
    (c.atomic ∨ spaceOf c sb e < sb.lowat ∨ spaceOf c sb e < s.clen)

instance (sb : Snd) (s : State) (e : Env) : Decidable (sleeps c sb s e) := inferInstanceAs (Decidable (_ ∧ _))

/-- The head of the outer loop. -/
def test (s : State) (e : Env) : State :=
  let sb := setopts s.snd e.opts
  let s : State := { s with snd := sb }
  match refuses c sb s e with
  | some error => { s with place := .out error }
  | none =>
    if sleeps c sb s e then
      if e.nbio then { s with place := .out (some .EWOULDBLOCK) }
      else match e.wait with
        | some error => { s with place := .out error }
        | none => { s with place := .restart }
    else
      let space := wrap32 (spaceOf c sb e - s.clen)
      { s with place := .fill, space := space, room := space, passed := 0 }

/-- A cluster goes into the mbuf. -/
def clusters (s : State) (e : Env) : Prop := MINCLSIZE ≤ s.left.length ∧ (MCLBYTES : Int) ≤ s.space ∧ e.cluster

instance (s : State) (e : Env) : Decidable (clusters s e) := inferInstanceAs (Decidable (_ ∧ _))

/-- `mlen`. -/
def mlen (s : State) (e : Env) : Nat :=
  if clusters s e then MCLBYTES else if s.top = [] then MHLEN else MLEN

/-- `len`, the minimum being that of `u_int`s. -/
def len (s : State) (e : Env) : Nat :=
  if clusters s e then
    if c.atomic ∧ s.top = [] then min (MCLBYTES - c.max_hdr) s.left.length else min MCLBYTES s.left.length
  else min (min (mlen s e) s.left.length) (s.space % 2 ^ 32).toNat

/-- Where `m_data` points into the storage of the mbuf. -/
def offset (s : State) (e : Env) : Nat :=
  if clusters s e then if c.atomic ∧ s.top = [] then c.max_hdr else 0
  else if c.atomic ∧ s.top = [] ∧ len c s e < mlen s e then (MHLEN - len c s e) / 4 * 4 else 0

/-- The space left behind the mbuf. -/
def spaceAfter (s : State) (e : Env) : Int :=
  wrap32 (s.space - if clusters s e then (MCLBYTES : Int) else len c s e)

/-- The bytes moved before `uiomove` fails, if it does. -/
def faults (s : State) (e : Env) : Option Nat := e.fault.filter fun k => decide (k < len c s e)

/-- An mbuf of the message. -/
def fill (s : State) (e : Env) : State :=
  let space := spaceAfter c s e
  match faults c s e with
  | some moved => { s with place := .out (some .EFAULT), left := s.left.drop moved, space := space, top := [] }
  | none =>
    let left := s.left.drop (len c s e)
    { s with
      left := left
      space := space
      top := s.top ++ [⟨offset c s e, s.left.take (len c s e), mlen s e⟩]
      pktlen := s.pktlen + len c s e
      eor := s.eor || left.isEmpty && c.eor
      place := if left ≠ [] ∧ 0 < space ∧ c.atomic then .fill else .send }

/-- The message goes to the protocol, which frees it. -/
def send (s : State) (e : Env) : State :=
  let packet : Packet := ⟨c.oob, s.eor, s.control, s.pktlen, s.top⟩
  let passed := s.passed + (bytes s.top).length
  let s : State := { s with
    sent := s.sent ++ [packet]
    control := none
    top := []
    pktlen := 0
    eor := false
    passed := passed }
  match e.send with
  | some error => { s with place := .out error }
  | none =>
    if s.left = [] then { s with place := .out none }
    else if 0 < s.space then { s with place := .fill }
    else { s with place := .test, idle := s.idle || passed == 0 }

/-- One step of the call. -/
def step (s : State) (e : Env) : State :=
  match s.place with
  | .restart =>
    match e.lock with
    | some error => { s with place := .out error }
    | none => { s with place := .test }
  | .test => test c s e
  | .fill => fill c s e
  | .send => send c s e
  | .out _ => s

/-! ## What a call should do -/

/-- A message the protocol can take: its length is the one in its header, and each mbuf holds its bytes. -/
def Built (chain : List Seg) (len : Nat) : Prop :=
  len = (bytes chain).length ∧ ∀ m ∈ chain, m.off + m.data.length ≤ m.size

/-- No iteration of the outer loop has gone round without passing a byte, every message is well built, and
at the end the protocol has got what was consumed. -/
structure Fine (s : State) : Prop where
  busy : s.idle = false
  built : ∀ p ∈ s.sent, Built p.chain p.len
  consumed : ∀ error, s.place = .out error → s.sent.flatMap (bytes ·.chain) ++ s.left = c.data

/-- No byte is consumed before a fault and lost with its message; and where an iteration began with no room
at all, the control data filling the space, there is nothing to send, or the protocol refuses the empty message. -/
def Ok (s : State) (e : Env) : Prop :=
  match s.place with
  | .fill => ∀ k, faults c s e = some k → k = 0 ∧ s.pktlen = 0
  | .send => s.room = 0 → s.left = [] ∨ e.send ≠ none
  | _ => True

/-! ## The invariant -/

theorem bytes_append (chain : List Seg) (m : Seg) : bytes (chain ++ [m]) = bytes chain ++ m.data := by
  simp [bytes]

theorem flatMap_append_packet (sent : List Packet) (p : Packet) :
    (sent ++ [p]).flatMap (bytes ·.chain) = sent.flatMap (bytes ·.chain) ++ bytes p.chain := by
  simp

/-- Unless bytes have moved, `space` is the room the iteration began with. -/
structure Filling (s : State) : Prop where
  fresh : s.passed = 0 → bytes s.top = [] → s.space = s.room
  none : s.room = 0 → s.space = 0 ∧ s.passed = 0 ∧ bytes s.top = []

/-- Something of the message has been moved unless there was no room or no data. -/
structure Sending (s : State) : Prop where
  some : s.room ≠ 0 → s.left ≠ [] → 0 < s.passed + (bytes s.top).length
  none : s.room = 0 → s.left ≠ [] → s.space = 0 ∧ s.passed = 0 ∧ bytes s.top = []

/-- The state between two steps. -/
structure Inv (s : State) : Prop where
  busy : s.idle = false
  built : ∀ p ∈ s.sent, Built p.chain p.len
  consumed : s.sent.flatMap (bytes ·.chain) ++ bytes s.top ++ s.left = c.data
  top : Built s.top s.pktlen
  space : Fits32 s.space
  out : ∀ error, s.place = .out error → bytes s.top = []
  outer : s.place = .restart ∨ s.place = .test → s.top = [] ∧ s.pktlen = 0
  filling : s.place = .fill → Filling s
  sending : s.place = .send → Sending s

variable {c} {s : State} {e : Env}

/-! ## One mbuf -/

theorem len_le : len c s e ≤ s.left.length := by
  unfold len
  split_ifs <;> omega

theorem len_pos (hfits : Fits32 s.space) (hspace : s.space ≠ 0) (hleft : s.left ≠ []) : 0 < len c s e := by
  have hlength : 0 < s.left.length := List.length_pos_of_ne_nil hleft
  have hroom : 0 < (s.space % 2 ^ 32).toNat := by
    unfold Fits32 at hfits
    omega
  have hmlen : 0 < mlen s e := by
    unfold mlen
    split_ifs <;> decide
  have hhdr := c.max_hdr_lt
  unfold len
  split_ifs <;> omega

theorem fill_empty (hspace : s.space = 0) : len c s e = 0 ∧ spaceAfter c s e = 0 := by
  have hno : ¬clusters s e := by
    intro h
    have := h.2.1
    rw [hspace] at this
    exact absurd this (by decide)
  have hlen : len c s e = 0 := by
    rw [len, if_neg hno, hspace]
    simp
  refine ⟨hlen, ?_⟩
  rw [spaceAfter, if_neg hno, hlen, hspace]
  rfl

theorem offset_add_len : offset c s e + len c s e ≤ mlen s e := by
  have hhdr := c.max_hdr_lt
  by_cases hc : clusters s e
  · simp only [offset, mlen, len, if_pos hc]
    split_ifs <;> omega
  · have hlen : len c s e ≤ mlen s e := by
      rw [len, if_neg hc]
      omega
    by_cases halign : c.atomic ∧ s.top = [] ∧ len c s e < mlen s e
    · have hmlen : mlen s e = MHLEN := by rw [mlen, if_neg hc, if_pos halign.2.1]
      have := Nat.div_mul_le_self (MHLEN - len c s e) 4
      rw [offset, if_neg hc, if_pos halign]
      omega
    · rw [offset, if_neg hc, if_neg halign]
      omega

theorem length_take_len : (s.left.take (len c s e)).length = len c s e :=
  List.length_take_of_le len_le

theorem Built.append {chain : List Seg} {n : Nat} (h : Built chain n) {m : Seg} (hm : m.off + m.data.length ≤ m.size) :
    Built (chain ++ [m]) (n + m.data.length) := by
  constructor
  · rw [bytes_append, List.length_append, ← h.1]
  · intro m' hm'
    rcases List.mem_append.1 hm' with hm' | hm'
    · exact h.2 m' hm'
    · rw [List.mem_singleton.1 hm']
      exact hm

theorem built_nil : Built [] 0 := ⟨rfl, by simp⟩

/-! ## What a step preserves -/

theorem Inv.start (c : Call) (sb : Snd) : Inv c (start c sb) where
  busy := rfl
  built := by simp [Sosend.start]
  consumed := rfl
  top := built_nil
  space := (by decide : Fits32 0)
  out := fun _ _ => rfl
  outer := fun _ => ⟨rfl, rfl⟩
  filling := fun h => by cases h
  sending := fun h => by cases h

theorem Inv.move (h : Inv c s) (hp : s.place = .restart ∨ s.place = .test) {p : Place} (hp' : p ≠ .fill ∧ p ≠ .send)
    (sb : Snd) : Inv c { s with place := p, snd := sb } where
  busy := h.busy
  built := h.built
  consumed := h.consumed
  top := h.top
  space := h.space
  out := fun _ _ => by
    rw [(h.outer hp).1]
    rfl
  outer := fun _ => h.outer hp
  filling := fun hfill => absurd hfill hp'.1
  sending := fun hsend => absurd hsend hp'.2

theorem Inv.test (h : Inv c s) (hp : s.place = .test) : Inv c (test c s e) := by
  unfold Sosend.test
  dsimp only
  split
  · exact h.move (.inr hp) (by simp) _
  · split_ifs
    · exact h.move (.inr hp) (by simp) _
    · split <;> exact h.move (.inr hp) (by simp) _
    · -- an iteration begins, with nothing in the message
      obtain ⟨htop, hlen⟩ := h.outer (.inr hp)
      refine ⟨h.busy, h.built, h.consumed, h.top, fits32_wrap32 _, fun _ hout => ?_, fun _ => ⟨htop, hlen⟩,
        fun _ => ?_, fun hsend => ?_⟩
      · cases hout
      · exact ⟨fun _ _ => rfl, fun hroom => ⟨hroom, rfl, by rw [htop]; rfl⟩⟩
      · cases hsend

/-- A fault loses nothing exactly if nothing was moved. -/
theorem Inv.fault (h : Inv c s) {k : Nat} (hk : faults c s e = some k) :
    (k = 0 ∧ s.pktlen = 0 → Inv c (fill c s e)) ∧ (¬(k = 0 ∧ s.pktlen = 0) → ¬Fine c (fill c s e)) := by
  have hlt : k < len c s e := by
    obtain ⟨-, hlt⟩ := Option.filter_eq_some_iff.1 hk
    exact of_decide_eq_true hlt
  simp only [fill, hk]
  constructor
  · rintro ⟨rfl, hz⟩
    have htop : bytes s.top = [] := by
      rw [← List.length_eq_zero_iff, ← h.top.1, hz]
    have hconsumed := h.consumed
    rw [htop] at hconsumed
    refine ⟨h.busy, h.built, hconsumed, ⟨hz, by simp⟩, fits32_wrap32 _, fun _ _ => rfl, fun _ => ⟨rfl, hz⟩,
      fun hfill => ?_, fun hsend => ?_⟩
    · cases hfill
    · cases hsend
  · intro hlost hfine
    have hgot := congrArg List.length (hfine.consumed _ rfl)
    have hall := congrArg List.length h.consumed
    simp only [List.length_append, List.length_drop] at hgot hall
    have hle : len c s e ≤ s.left.length := len_le
    have htop := h.top.1
    omega

theorem Inv.fill (h : Inv c s) (hp : s.place = .fill) (hf : faults c s e = none) : Inv c (fill c s e) := by
  obtain ⟨hfresh, hnone⟩ := h.filling hp
  have htake : (s.left.take (len c s e)).length = len c s e := length_take_len
  have hbytes : (bytes (s.top ++ [⟨offset c s e, s.left.take (len c s e), mlen s e⟩])).length =
      (bytes s.top).length + len c s e := by
    rw [bytes_append, List.length_append, htake]
  have hsome : s.room ≠ 0 → s.left ≠ [] → 0 < s.passed + ((bytes s.top).length + len c s e) := by
    intro hroom hleft
    by_cases hzero : s.passed = 0 ∧ bytes s.top = []
    · have hspace := hfresh hzero.1 hzero.2
      have := len_pos (c := c) (e := e) h.space (hspace ▸ hroom) hleft
      omega
    · rw [← List.length_eq_zero_iff] at hzero
      omega
  have hempty : s.room = 0 → spaceAfter c s e = 0 ∧ s.passed = 0 ∧ (bytes s.top).length + len c s e = 0 := by
    intro hroom
    obtain ⟨hspace, hpassed, htop⟩ := hnone hroom
    obtain ⟨hlen, hafter⟩ := fill_empty (c := c) (e := e) hspace
    exact ⟨hafter, hpassed, by rw [htop, hlen]; rfl⟩
  have hmem : s.left.drop (len c s e) ≠ [] → s.left ≠ [] := by
    intro hdrop hnil
    rw [hnil, List.drop_nil] at hdrop
    exact hdrop rfl
  simp only [Sosend.fill, hf]
  refine ⟨h.busy, h.built, ?_, ?_, fits32_wrap32 _, fun _ hout => ?_, fun houter => ?_, fun hfill => ?_,
    fun hsend => ?_⟩
  · rw [bytes_append, List.append_assoc, List.append_assoc, List.take_append_drop, ← List.append_assoc]
    exact h.consumed
  · have := h.top.append (m := ⟨offset c s e, s.left.take (len c s e), mlen s e⟩) (by
      rw [htake]
      exact offset_add_len)
    rwa [htake] at this
  · split_ifs at hout
  · rcases houter with houter | houter <;> split_ifs at houter
  · refine ⟨fun hpassed htop => ?_, fun hroom => ?_⟩
    · -- an mbuf that took nothing had no room
      rw [← List.length_eq_zero_iff, hbytes] at htop
      by_cases hroom : s.room = 0
      · exact (hempty hroom).1.trans hroom.symm
      · have hleft : s.left.drop (len c s e) ≠ [] := by
          intro hnil
          simp [hnil] at hfill
        have := hsome hroom (hmem hleft)
        simp only at hpassed
        omega
    · obtain ⟨hspace, hpassed, hlen⟩ := hempty hroom
      exact ⟨hspace, hpassed, by rw [← List.length_eq_zero_iff, hbytes, hlen]⟩
  · refine ⟨fun hroom hleft => ?_, fun hroom hleft => ?_⟩
    · rw [hbytes]
      exact hsome hroom (hmem hleft)
    · obtain ⟨hspace, hpassed, hlen⟩ := hempty hroom
      exact ⟨hspace, hpassed, by rw [← List.length_eq_zero_iff, hbytes, hlen]⟩

theorem Inv.send (h : Inv c s) (hp : s.place = .send) (hok : s.room = 0 → s.left = [] ∨ e.send ≠ none) :
    Inv c (send c s e) := by
  obtain ⟨hsome, hnone⟩ := h.sending hp
  have hbuilt : ∀ p ∈ s.sent ++ [(⟨c.oob, s.eor, s.control, s.pktlen, s.top⟩ : Packet)], Built p.chain p.len := by
    intro p hmem
    rcases List.mem_append.1 hmem with hmem | hmem
    · exact h.built p hmem
    · rw [List.mem_singleton.1 hmem]
      exact h.top
  have hconsumed : (s.sent ++ [(⟨c.oob, s.eor, s.control, s.pktlen, s.top⟩ : Packet)]).flatMap (bytes ·.chain) ++
      bytes [] ++ s.left = c.data := by
    rw [flatMap_append_packet]
    simpa [bytes] using h.consumed
  -- an iteration that goes on has room left or has passed something
  have hgoes : e.send = none → s.left ≠ [] → s.passed + (bytes s.top).length ≠ 0 := by
    intro hsend hleft hzero
    by_cases hroom : s.room = 0
    · rcases hok hroom with hnil | hsend'
      · exact hleft hnil
      · exact hsend' hsend
    · have := hsome hroom hleft
      omega
  unfold Sosend.send
  dsimp only
  split
  · refine ⟨h.busy, hbuilt, hconsumed, built_nil, h.space, fun _ _ => rfl, fun _ => ⟨rfl, rfl⟩, fun hfill => ?_, fun hsend => ?_⟩
    · cases hfill
    · cases hsend
  case _ hsend =>
    split_ifs with hleft hspace
    · refine ⟨h.busy, hbuilt, hconsumed, built_nil, h.space, fun _ _ => rfl, fun _ => ⟨rfl, rfl⟩, fun hfill => ?_, fun hsend => ?_⟩
      · cases hfill
      · cases hsend
    · have hpassed := hgoes hsend hleft
      refine ⟨h.busy, hbuilt, hconsumed, built_nil, h.space, fun _ _ => rfl, fun _ => ⟨rfl, rfl⟩, fun _ => ?_, fun hsend => ?_⟩
      · refine ⟨fun hzero => absurd hzero hpassed, fun hroom => ?_⟩
        obtain ⟨hzero, -⟩ := hnone hroom hleft
        exact absurd hspace (by rw [hzero]; exact lt_irrefl 0)
      · cases hsend
    · have hpassed := hgoes hsend hleft
      refine ⟨?_, hbuilt, hconsumed, built_nil, h.space, fun _ _ => rfl, fun _ => ⟨rfl, rfl⟩, fun hfill => ?_, fun hsend => ?_⟩
      · simpa [h.busy] using hpassed
      · cases hfill
      · cases hsend

theorem Inv.goes_round (h : Inv c s) (hp : s.place = .send) (hroom : s.room = 0) (hleft : s.left ≠ [])
    (hsend : e.send = none) : (Sosend.send c s e).idle = true := by
  obtain ⟨hspace, hpassed, htop⟩ := (h.sending hp).none hroom hleft
  simp [Sosend.send, hsend, hleft, hspace, hpassed, htop]

theorem Inv.step (h : Inv c s) (hok : Ok c s e) : Inv c (step c s e) := by
  cases hp : s.place with
  | restart =>
    simp only [Sosend.step, hp]
    split <;> exact h.move (.inl hp) (by simp) s.snd
  | test =>
    simp only [Sosend.step, hp]
    exact h.test hp
  | fill =>
    simp only [Sosend.step, hp]
    simp only [Ok, hp] at hok
    cases hf : faults c s e with
    | none => exact h.fill hp hf
    | some k => exact (h.fault hf).1 (hok k hf)
  | send =>
    simp only [Sosend.step, hp]
    simp only [Ok, hp] at hok
    exact h.send hp hok
  | out error =>
    simp only [Sosend.step, hp]
    exact h

theorem Inv.fine (h : Inv c s) : Fine c s where
  busy := h.busy
  built := h.built
  consumed := by
    intro error hout
    have hconsumed := h.consumed
    rwa [h.out error hout, List.append_nil] at hconsumed

theorem Inv.not_fine (h : Inv c s) (hok : ¬Ok c s e) : ¬Fine c (Sosend.step c s e) := by
  cases hp : s.place with
  | restart => exact absurd (by simp only [Ok, hp]) hok
  | test => exact absurd (by simp only [Ok, hp]) hok
  | out error => exact absurd (by simp only [Ok, hp]) hok
  | fill =>
    simp only [Ok, hp, Classical.not_forall] at hok
    obtain ⟨k, hf, hlost⟩ := hok
    simp only [Sosend.step, hp]
    exact (h.fault hf).2 hlost
  | send =>
    simp only [Ok, hp, Classical.not_imp, not_or, not_not] at hok
    obtain ⟨hroom, hleft, hsend⟩ := hok
    simp only [Sosend.step, hp]
    intro hfine
    have hidle := h.goes_round hp hroom hleft hsend
    rw [hfine.busy] at hidle
    cases hidle

/-! ## Whole calls -/

/-- The calls in which every iteration makes progress and the protocol gets what is consumed. -/
theorem sosend_iff (c : Call) (sb : Snd) (es : List Env) :
    (∀ s ∈ states (step c) (start c sb) es, Fine c s) ↔ Along (step c) (Ok c) (start c sb) es :=
  states_iff_ok (fun _ _ h hok => h.step hok) (fun _ h => h.fine) (fun _ _ h hok => h.not_fine hok) es
    (Inv.start c sb)

/-- A byte for a connection, without control data. -/
def oneByte : Call where
  data := [7]
  resid_int := by decide
  addr := false
  control := none
  oob := false
  eor := false
  atomic := false
  connrequired := true
  max_hdr := 56
  max_hdr_lt := by decide

/-- A connection whose send buffer is full, its low-water mark having been set to 0. -/
def full : Env where
  lock := none
  opts := [.sndlowat 0]
  cc := 4096
  mbcnt := 4096
  cantsendmore := false
  so_error := none
  connected := true
  confirming := false
  nbio := false
  wait := none
  cluster := true
  fault := none
  send := none

/-- The first iteration passes an empty message, and the loop goes round without having slept. -/
theorem sosend_full :
    ¬∀ s ∈ states (step oneByte) (start oneByte ⟨4096, 8192, 1024⟩) [full, full, full, full], Fine oneByte s := by
  intro h
  have hbusy := (h _ (final_mem_states _ _ _)).busy
  exact absurd hbusy (by decide)

end BsdKernel.Sosend
