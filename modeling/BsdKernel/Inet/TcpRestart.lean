import BsdKernel.Kern.MbufAdj
import Mathlib.Tactic
/-!
# Starting over in TIME_WAIT

`tcp_input` of `inet/tcp_input.c` from `findpcb` to the test of `RST`: the search for
the connection, header prediction, the headers dropped from the first mbuf, and the
two trims of a segment outside the receive window. A `SYN` above the window of a
connection in `TIME_WAIT` closes it and goes back to `findpcb`, which leads to the
listener.

The headers are dropped on the way to the branch and once more behind `findpcb`, so
the listener gets the segment without its first 40 bytes, or with a negative `m_len`
(`restart_iff`).
-/

namespace BsdKernel.TcpInput

open BsdKernel.Lib BsdKernel.Mbufs

abbrev Seq := BitVec 32

/-- `SEQ_GT` -/
def SEQ_GT (a b : Seq) : Bool := 0 < (a - b).toInt

def SEQ_LEQ (a b : Seq) : Bool := (a - b).toInt ≤ 0

/-- `sizeof (struct tcpiphdr)` -/
def sizeofTcpiphdr : Int := 40

/-- `t_state`, in order. -/
inductive TState where
  | CLOSED | LISTEN | SYN_SENT | SYN_RECEIVED | ESTABLISHED | CLOSE_WAIT | FIN_WAIT_1 | CLOSING | LAST_ACK
  | FIN_WAIT_2 | TIME_WAIT
  deriving DecidableEq, Repr

/-- `tiflags` -/
structure TiFlags where
  fin : Bool
  syn : Bool
  rst : Bool
  push : Bool
  ack : Bool
  urg : Bool
  deriving DecidableEq, Repr

/-- A segment at `findpcb`: the mbufs with its headers in the first one, the fields of `ti` in host order, and the
options in `om`. -/
structure Seg where
  m : List Mbuf
  seq : Seq
  ack : Seq
  win : BitVec 16
  urp : BitVec 16
  len : Int
  tiflags : TiFlags
  om : Option (List Byte)

/-- What is read of `tcpcb` and its socket; `space` is `sbspace` of the receive buffer. -/
structure Conn where
  state : TState
  rcvNxt : Seq
  rcvAdv : Seq
  sndUna : Seq
  sndNxt : Seq
  sndMax : Seq
  sndWnd : BitVec 16
  sndCwnd : BitVec 16
  reassEmpty : Bool
  space : BitVec 32
  cantrcvmore : Bool
  nofdref : Bool
  deriving DecidableEq, Repr

/-- What becomes of a segment: it is dropped, goes by header prediction, gets to a `case` of the switch on `t_state`,
starts over at `findpcb`, or gets to the test of `RST`. -/
inductive Next where
  | drop
  | predicted
  | listen (tp : Conn) (ti : Seg)
  | synSent (tp : Conn) (ti : Seg)
  | restart (ti : Seg)
  | rest (tp : Conn) (ti : Seg)

/-! ## One pass -/

/-- Header prediction. -/
def predicts (tp : Conn) (ti : Seg) : Bool :=
  let f := ti.tiflags
  tp.state = .ESTABLISHED && f.ack && !f.syn && !f.fin && !f.rst && !f.urg && ti.seq = tp.rcvNxt &&
    ti.win ≠ 0 && ti.win = tp.sndWnd && tp.sndNxt = tp.sndMax &&
    if ti.len = 0 then SEQ_GT ti.ack tp.sndUna && SEQ_LEQ ti.ack tp.sndMax && tp.sndWnd ≤ tp.sndCwnd
    else ti.ack = tp.sndUna && tp.reassEmpty && ti.len ≤ tp.space.toNat && !tp.cantrcvmore

/-- The headers are dropped from the first mbuf. -/
def dropHeaders : List Mbuf → List Mbuf
  | [] => []
  | m :: ms => { m with data := m.data + sizeofTcpiphdr, len := m.len - sizeofTcpiphdr } :: ms

/-- `rcv_wnd`: `max` is of unsigned numbers, and the field has 16 bits. -/
def Conn.rcvWnd (tp : Conn) : BitVec 16 :=
  let win := if tp.space.toInt < 0 then 0 else tp.space
  let adv := tp.rcvAdv - tp.rcvNxt
  (if win > adv then win else adv).setWidth 16

/-- The `SYN` takes the first sequence number. -/
def dropSyn (ti : Seg) : Seg :=
  let urp := if ti.urp > 1 then ti.urp - 1 else ti.urp
  let urg := if ti.urp > 1 then ti.tiflags.urg else false
  { ti with seq := ti.seq + 1, urp, tiflags := { ti.tiflags with syn := false, urg } }

/-- The first `todrop` bytes go. -/
def cutFront (ti : Seg) (todrop : Int) : Option Seg :=
  (m_adj ti.m todrop).map fun m =>
    let ti := { ti with m, seq := ti.seq + BitVec.ofInt 32 todrop, len := ti.len - todrop }
    if (ti.urp.toNat : Int) > todrop then { ti with urp := ti.urp - BitVec.ofInt 16 todrop }
    else { ti with urp := 0, tiflags := { ti.tiflags with urg := false } }

/-- Leading data outside the window is dropped; `none` is a segment that is not processed. -/
def trimFront (tp : Conn) (ti : Seg) : Option Seg :=
  let todrop := (tp.rcvNxt - ti.seq).toInt
  if todrop ≤ 0 then some ti
  else
    let todrop := if ti.tiflags.syn then todrop - 1 else todrop
    let ti := if ti.tiflags.syn then dropSyn ti else ti
    if todrop > ti.len ∨ todrop = ti.len ∧ ti.tiflags.fin = false then
      if ti.tiflags.fin = true ∧ todrop = ti.len + 1 ∨ ti.tiflags.rst = true ∧ ti.seq = tp.rcvNxt - 1 then
        cutFront { ti with tiflags := { ti.tiflags with fin := false } } ti.len
      else none
    else cutFront ti todrop

/-- The last `todrop` bytes go, with the flags for the end of the data. -/
def cutBack (tp : Conn) (ti : Seg) (todrop : Int) : Next :=
  match m_adj ti.m (-todrop) with
  | none => .drop
  | some m => .rest tp { ti with m, len := ti.len - todrop, tiflags := { ti.tiflags with push := false, fin := false } }

/-- Trailing data outside the window is dropped, or the connection is. -/
def trimBack (tp : Conn) (ti : Seg) : Next :=
  let todrop := (ti.seq + BitVec.ofInt 32 ti.len - (tp.rcvNxt + tp.rcvWnd.setWidth 32)).toInt
  if todrop ≤ 0 then .rest tp ti
  else if todrop ≥ ti.len then
    if ti.tiflags.syn = true ∧ tp.state = .TIME_WAIT ∧ SEQ_GT ti.seq tp.rcvNxt then .restart ti
    else if tp.rcvWnd = 0 ∧ ti.seq = tp.rcvNxt then cutBack tp ti todrop
    else .drop
  else cutBack tp ti todrop

/-- States above `CLOSE_WAIT`: the user has closed. -/
def TState.closed : TState → Bool
  | .FIN_WAIT_1 | .CLOSING | .LAST_ACK | .FIN_WAIT_2 | .TIME_WAIT => true
  | _ => false

/-- The other states: first the segment is trimmed. -/
def trim (tp : Conn) (ti : Seg) : Next :=
  match trimFront tp ti with
  | none => .drop
  | some ti => if tp.nofdref ∧ tp.state.closed ∧ ti.len ≠ 0 then .drop else trimBack tp ti

/-- From the options on, with the connection that `findpcb` found; the options are done in the `LISTEN` case or here. -/
def pass (tp : Conn) (ti : Seg) : Next :=
  let ti := if tp.state = .LISTEN then ti else { ti with om := none }
  if predicts tp ti then .predicted
  else
    let ti := { ti with m := dropHeaders ti.m }
    match tp.state with
    | .CLOSED => .drop
    | .LISTEN => .listen tp ti
    | .SYN_SENT => .synSent tp ti
    | _ => trim tp ti

/-- `findpcb`: the connection, or the one of a new socket if it found a listener; `none` if there is no pcb or no
socket. -/
def findpcb (found : Option Conn) (ti : Seg) : Next :=
  match found with
  | none => .drop
  | some tp => pass tp ti

/-- `tcp_input` from `findpcb` on: `found` by the first search, and `again` once the connection is closed. -/
def tcpInput (found again : Option Conn) (ti : Seg) : Next :=
  match findpcb found ti with
  | .restart ti => findpcb again ti
  | r => r

/-! ## The segment that the listener gets -/

/-- A listener that gets the segment gets what it would get without the old connection, and no mbuf has a negative
length. -/
def Survives (old : Conn) (again : Option Conn) (ti : Seg) : Prop :=
  ∀ tp s, tcpInput (some old) again ti = .listen tp s →
    ∃ s₀, findpcb again ti = .listen tp s₀ ∧ bytes s.m = bytes s₀.m ∧ s.len = s₀.len ∧ s.tiflags = s₀.tiflags ∧
      ∀ m ∈ s.m, 0 ≤ m.len

section Restart
variable {old tp : Conn} {again : Option Conn} {ti s : Seg}

theorem cutFront_syn {todrop : Int} (h : cutFront ti todrop = some s) : s.tiflags.syn = ti.tiflags.syn := by
  obtain ⟨m, -, rfl⟩ := Option.map_eq_some_iff.1 h
  simp only
  split_ifs <;> rfl

/-- A segment that keeps its `SYN` was not trimmed in front. -/
theorem trimFront_syn (h : trimFront tp ti = some s) (hs : s.tiflags.syn = true) : s = ti := by
  have hsyn : (if ti.tiflags.syn then dropSyn ti else ti).tiflags.syn = false := by
    by_cases hf : ti.tiflags.syn = true
    · rw [if_pos hf]
      rfl
    · rw [if_neg hf]
      exact Bool.eq_false_of_not_eq_true hf
  simp only [trimFront] at h
  by_cases h0 : (tp.rcvNxt - ti.seq).toInt ≤ 0
  · rw [if_pos h0] at h
    exact (Option.some.inj h).symm
  · exfalso
    rw [if_neg h0] at h
    generalize (if ti.tiflags.syn = true then dropSyn ti else ti) = cut at h hsyn
    generalize (if ti.tiflags.syn = true then (tp.rcvNxt - ti.seq).toInt - 1 else (tp.rcvNxt - ti.seq).toInt) = d at h
    have hcut : s.tiflags.syn = cut.tiflags.syn := by
      split_ifs at h
      · exact (cutFront_syn h).trans rfl
      · exact cutFront_syn h
    rw [hcut, hsyn] at hs
    cases hs

theorem cutBack_rest {todrop : Int} : cutBack tp ti todrop = .drop ∨ ∃ s, cutBack tp ti todrop = .rest tp s := by
  unfold cutBack
  cases m_adj ti.m (-todrop) with
  | none => exact Or.inl rfl
  | some m => exact Or.inr ⟨_, rfl⟩

/-- A segment that is trimmed is dropped, goes on, or is a `SYN` in `TIME_WAIT` that starts over as it was. -/
theorem trim_cases (tp : Conn) (ti : Seg) :
    trim tp ti = .drop ∨ (∃ s, trim tp ti = .rest tp s) ∨ trim tp ti = .restart ti ∧ tp.state = .TIME_WAIT := by
  unfold trim
  cases hf : trimFront tp ti with
  | none => exact Or.inl rfl
  | some t =>
    simp only [trimBack]
    split_ifs with hnof h0 h1 h2 h3
    · exact Or.inl rfl
    · exact Or.inr (Or.inl ⟨_, rfl⟩)
    · obtain rfl := trimFront_syn hf h2.1
      exact Or.inr (Or.inr ⟨rfl, h2.2.1⟩)
    · exact cutBack_rest.imp_right Or.inl
    · exact Or.inl rfl
    · exact cutBack_rest.imp_right Or.inl

/-- A segment that starts over has lost its headers and its options, and nothing else. -/
theorem pass_restart (h : pass tp ti = .restart s) : s = { ti with m := dropHeaders ti.m, om := none } := by
  by_cases hl : tp.state = .LISTEN
  · simp only [pass, hl] at h
    split_ifs at h
  · simp only [pass, if_neg hl] at h
    split_ifs at h with hp
    have htrim : trim tp { ti with m := dropHeaders ti.m, om := none } = .restart s := by
      cases hst : tp.state <;> rw [hst] at h <;> simp only at h
      all_goals first | exact h | cases h
    obtain hd | ⟨t, hr⟩ | ⟨hs, -⟩ := trim_cases tp { ti with m := dropHeaders ti.m, om := none }
    · rw [hd] at htrim
      cases htrim
    · rw [hr] at htrim
      cases htrim
    · exact (Next.restart.inj (hs.symm.trans htrim)).symm

theorem pass_listen (h : tp.state = .LISTEN) : pass tp ti = .listen tp { ti with m := dropHeaders ti.m } := by
  have hp : predicts tp ti = false := by simp [predicts, h]
  unfold pass
  rw [if_pos h]
  simp only [hp, h]
  rfl

theorem state_of_listen (h : pass tp ti = .listen old s) : tp.state = .LISTEN := by
  by_contra hl
  simp only [pass, if_neg hl] at h
  split_ifs at h with hp
  have htrim : trim tp { ti with m := dropHeaders ti.m, om := none } = .listen old s := by
    cases hst : tp.state <;> rw [hst] at h <;> simp only at h
    all_goals first | exact h | exact absurd hst hl | cases h
  obtain hd | ⟨t, hr⟩ | ⟨hs, -⟩ := trim_cases tp { ti with m := dropHeaders ti.m, om := none }
  · rw [hd] at htrim
    cases htrim
  · rw [hr] at htrim
    cases htrim
  · rw [hs] at htrim
    cases htrim

/-- Headers dropped twice: 40 bytes are missing, or the length of the first mbuf is negative. -/
theorem dropHeaders_twice (m : Mbuf) (ms : List Mbuf) :
    bytes (dropHeaders (dropHeaders (m :: ms))) ≠ bytes (dropHeaders (m :: ms)) ∨
      ∃ n ∈ dropHeaders (dropHeaders (m :: ms)), n.len < 0 := by
  by_cases hneg : m.len - sizeofTcpiphdr - sizeofTcpiphdr < 0
  · exact Or.inr ⟨_, List.mem_cons_self .., hneg⟩
  · left
    intro hb
    have hl := congrArg List.length hb
    simp only [dropHeaders, bytes_cons, List.length_append, length_bytes, sizeofTcpiphdr] at hl hneg
    omega

/-- The listener behind a connection in `TIME_WAIT` never gets the segment as it was. -/
theorem listener_robbed (hm : ti.m ≠ []) (hr : pass old ti = .restart s) (hl : tp.state = .LISTEN) :
    ¬Survives old (some tp) ti := by
  intro h
  have hgets : tcpInput (some old) (some tp) ti = .listen tp { s with m := dropHeaders s.m } := by
    simp only [tcpInput, findpcb, hr]
    exact pass_listen hl
  obtain ⟨s₀, hs₀, hb, -, -, hpos⟩ := h tp _ hgets
  rw [findpcb, pass_listen hl] at hs₀
  obtain ⟨-, rfl⟩ := Next.listen.inj hs₀
  rw [pass_restart hr] at hb hpos
  obtain ⟨m, ms, hms⟩ := List.exists_cons_of_ne_nil hm
  simp only [hms] at hb hpos
  obtain hne | ⟨n, hn, hneg⟩ := dropHeaders_twice m ms
  · exact hne hb
  · exact absurd (hpos n hn) (by omega)

end Restart

/-- A segment that starts over gets to no listener as it was: all is well only if there is none. -/
theorem restart_iff (old : Conn) (again : Option Conn) (ti s : Seg) (hm : ti.m ≠ []) (hr : pass old ti = .restart s) :
    Survives old again ti ↔ ∀ tp, again = some tp → tp.state ≠ .LISTEN := by
  constructor
  · rintro h tp rfl hl
    exact listener_robbed hm hr hl h
  · intro h tp t ht
    simp only [tcpInput, findpcb, hr] at ht
    cases again with
    | none => cases ht
    | some c => exact absurd (state_of_listen ht) (h c rfl)

/-- An mbuf with the headers and no data. -/
def headersOnly : Mbuf := ⟨⟨false, true, false, false, false⟩, 1, ⟨0, 40⟩, fun _ => 0, ⟨0, fun _ => 0, 0⟩, pktdat, 40⟩

/-- A connection at sequence number 0 with a window of 4096. -/
def conn (state : TState) : Conn :=
  ⟨state, 0, 4096, 0, 0, 0, 0, 0, true, 4096, false, false⟩

/-- A `SYN` above that window. -/
def synAbove : Seg := ⟨[headersOnly], 8192, 0, 4096, 0, 0, ⟨false, true, false, false, false, false⟩, none⟩

theorem restart_robs : ¬Survives (conn .TIME_WAIT) (some (conn .LISTEN)) synAbove := by
  intro h
  have hr : pass (conn .TIME_WAIT) synAbove = .restart { synAbove with m := dropHeaders synAbove.m } := rfl
  exact (restart_iff _ _ _ _ (List.cons_ne_nil _ _) hr).1 h _ rfl rfl

/-- The listener gets an mbuf of length -40. -/
theorem restart_negative : ¬ ∀ (old tp : Conn) (ti s : Seg), ti.m ≠ [] → pass old ti = .restart s → tp.state = .LISTEN →
    Survives old (some tp) ti := fun h =>
  listener_robbed (List.cons_ne_nil _ _) (s := { synAbove with m := dropHeaders synAbove.m }) rfl rfl
    (h (conn .TIME_WAIT) (conn .LISTEN) synAbove _ (List.cons_ne_nil _ _) rfl rfl)

end BsdKernel.TcpInput
