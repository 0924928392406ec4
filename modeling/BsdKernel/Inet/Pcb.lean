import BsdKernel.Lib.Trace
import Mathlib.Data.List.Nodup
import Mathlib.Data.List.Perm.Basic
import Mathlib.Logic.Function.Iterate
import Mathlib.Tactic.IntervalCases
/-!
# Protocol control blocks

`in_pcballoc`, `in_pcbbind`, `in_pcbconnect`, `in_pcbdisconnect`, `in_pcbdetach` and
`in_pcblookup` of `inet/in_pcb.c`, with the search of `tcp_input` for the pcb of a
segment, its one-entry cache `tcp_last_inpcb`, and the pcb it makes for a connection
request. A pcb is known by its address; the list is in the order of its links, and
the head is no pcb but has the port counter and serves as the empty cache.

`in_pcbconnect` looks for a pcb with the four addresses before `in_pcbbind` picks the
local port, so two sockets that share their ports may get the same connection.
`pcb_runs`: in every run in which this does not happen, no two pcbs have the same
connection, a lookup returns a pcb with the fewest wildcards, and the cache yields
what the lookup does.
-/

namespace BsdKernel.Inet

open BsdKernel.Lib

abbrev InAddr := BitVec 32

/-- A port in network order. -/
abbrev Port := BitVec 16

def INADDR_ANY : InAddr := 0
def INADDR_BROADCAST : InAddr := 0xffffffff
def IPPORT_RESERVED : BitVec 16 := 1024
def IPPORT_USERRESERVED : BitVec 16 := 5000

def htons (p : BitVec 16) : Port := (p <<< 8) ||| (p >>> 8)

def ntohs (p : Port) : BitVec 16 := htons p

inductive Errno where
  | EADDRNOTAVAIL | EINVAL | EACCES | EADDRINUSE | EAFNOSUPPORT
  deriving DecidableEq, Repr

/-- The addresses of a pcb, of a segment or of a search. -/
structure Tuple where
  faddr : InAddr
  fport : Port
  laddr : InAddr
  lport : Port
  deriving DecidableEq, Repr

/-- What the pcb code reads of a socket: `SO_REUSEADDR`, `SO_ACCEPTCONN`, `SS_NOFDREF`. -/
structure Socket where
  reuseaddr : Bool
  acceptconn : Bool
  nofdref : Bool
  deriving DecidableEq, Repr

/-- `struct inpcb` at the address `id` -/
structure Inpcb where
  id : Nat
  tuple : Tuple
  so : Socket
  deriving DecidableEq, Repr

/-- `tcp_last_inpcb` -/
inductive Ref where
  | head
  | pcb (id : Nat)
  deriving DecidableEq, Repr

/-- The pcbs of a protocol. -/
structure Pcbs where
  connrequired : Bool
  headLport : BitVec 16
  pcbs : List Inpcb
  last : Ref
  deriving DecidableEq, Repr

/-- `struct in_ifaddr`, with the flags of its interface `ifp`. -/
structure InIfaddr where
  addr : InAddr
  broadaddr : InAddr
  ifp : Nat
  broadcast : Bool
  deriving DecidableEq, Repr

/-- The interfaces, and the lookups among them. -/
structure Ifs where
  inIfaddr : List InIfaddr
  ifwithaddr : InAddr → Bool
  ifwithdstaddr : InAddr → Option InIfaddr
  iaonnetof : InAddr → Option InIfaddr
  dst_mem : ∀ a ia, ifwithdstaddr a = some ia → ia ∈ inIfaddr
  net_mem : ∀ a ia, iaonnetof a = some ia → ia ∈ inIfaddr

/-- `struct sockaddr_in` in an mbuf: whether it has its length and family. -/
structure SockaddrIn where
  lenOk : Bool
  inet : Bool
  addr : InAddr
  port : Port
  deriving DecidableEq, Repr

/-! ## The lookup -/

/-- The wildcards of a match, or `none`. -/
def wildcards (q : Tuple) (p : Tuple) : Option Nat :=
  if p.lport ≠ q.lport then none
  else do
    let w ← if p.laddr ≠ INADDR_ANY then
        if q.laddr = INADDR_ANY then some 1 else if p.laddr ≠ q.laddr then none else some 0
      else if q.laddr ≠ INADDR_ANY then some 1 else some 0
    if p.faddr ≠ INADDR_ANY then
      if q.faddr = INADDR_ANY then some (w + 1)
      else if p.faddr ≠ q.faddr ∨ p.fport ≠ q.fport then none else some w
    else if q.faddr ≠ INADDR_ANY then some (w + 1) else some w

/-- The loop of `in_pcblookup`. -/
def lookupLoop (q : Tuple) (wildcard : Bool) : List Inpcb → Option Inpcb → Nat → Option Inpcb
  | [], found, _ => found
  | inp :: l, found, matchwild =>
    match wildcards q inp.tuple with
    | none => lookupLoop q wildcard l found matchwild
    | some w =>
      if w ≠ 0 ∧ wildcard = false then lookupLoop q wildcard l found matchwild
      else if w < matchwild then if w = 0 then some inp else lookupLoop q wildcard l (some inp) w
      else lookupLoop q wildcard l found matchwild

/-- `in_pcblookup`; `wildcard` is `INPLOOKUP_WILDCARD` in the flags. -/
def inPcblookup (l : List Inpcb) (q : Tuple) (wildcard : Bool) : Option Inpcb :=
  lookupLoop q wildcard l none 3

/-! ## Binding and connecting -/

variable (s : Pcbs)

/-- What `f` makes of the pcb `id`. -/
def Pcbs.update (id : Nat) (f : Inpcb → Inpcb) : Pcbs :=
  { s with pcbs := s.pcbs.map fun inp => if inp.id = id then f inp else inp }

def Pcbs.get? (id : Nat) : Option Inpcb := s.pcbs.find? fun inp => inp.id = id

/-- `in_pcballoc` -/
def inPcballoc (id : Nat) (so : Socket) : Pcbs :=
  { s with pcbs := ⟨id, ⟨0, 0, 0, 0⟩, so⟩ :: s.pcbs }

/-- One turn of the counter of `in_pcbbind`. -/
def nextPort (p : BitVec 16) : BitVec 16 :=
  if p < IPPORT_RESERVED ∨ p + 1 > IPPORT_USERRESERVED then IPPORT_RESERVED else p + 1

/-- The port is taken for the local address `laddr`. -/
def Pcbs.taken (laddr : InAddr) (wild : Bool) (p : BitVec 16) : Bool :=
  (inPcblookup s.pcbs ⟨INADDR_ANY, 0, laddr, htons p⟩ wild).isSome

/-- The loop of `in_pcbbind` that picks a port, at most so many turns. -/
def pickPort (laddr : InAddr) (wild : Bool) : Nat → BitVec 16 → Option (BitVec 16)
  | 0, _ => none
  | n + 1, p => if s.taken laddr wild (nextPort p) then pickPort laddr wild n (nextPort p) else some (nextPort p)

/-- The turns after which every port has been tried, and the loop never ends. -/
def portTurns : Nat := 3978

/-- `INPLOOKUP_WILDCARD` for a socket that does not share its port. -/
def Pcbs.wild (so : Socket) : Bool := !so.reuseaddr && (!s.connrequired || !so.acceptconn)

/-- `in_pcbbind` from `noname` on, with the port asked for; `none` is a loop that goes on. -/
def bindPort (inp : Inpcb) (laddr : InAddr) (lport : Port) : Option Pcbs :=
  let s := s.update inp.id fun inp => { inp with tuple := { inp.tuple with laddr := laddr } }
  if lport = 0 then
    (pickPort s laddr (s.wild inp.so) portTurns s.headLport).map fun p =>
      { s with headLport := p }.update inp.id fun inp => { inp with tuple := { inp.tuple with lport := htons p } }
  else some (s.update inp.id fun inp => { inp with tuple := { inp.tuple with lport := lport } })

/-- `in_pcbbind`; `priv` is `SS_PRIV`. -/
def inPcbbind (ifs : Ifs) (inp : Inpcb) (nam : Option SockaddrIn) (priv : Bool) : Except Errno (Option Pcbs) :=
  if ifs.inIfaddr = [] then .error .EADDRNOTAVAIL
  else if inp.tuple.lport ≠ 0 ∨ inp.tuple.laddr ≠ INADDR_ANY then .error .EINVAL
  else match nam with
    | none => .ok (bindPort s inp inp.tuple.laddr 0)
    | some sin =>
      if sin.lenOk = false then .error .EINVAL
      else if sin.addr ≠ INADDR_ANY ∧ ifs.ifwithaddr sin.addr = false then .error .EADDRNOTAVAIL
      else if sin.port ≠ 0 ∧ ntohs sin.port < IPPORT_RESERVED ∧ priv = false then .error .EACCES
      else if sin.port ≠ 0 ∧ (inPcblookup s.pcbs ⟨INADDR_ANY, 0, sin.addr, sin.port⟩ (s.wild inp.so)).isSome then
        .error .EADDRINUSE
      else .ok (bindPort s inp sin.addr sin.port)

/-- The address `in_pcbconnect` connects to. -/
def Ifs.faddr (ifs : Ifs) (addr : InAddr) : InAddr :=
  match ifs.inIfaddr with
  | [] => addr
  | ia :: _ =>
    if addr = INADDR_ANY then ia.addr
    else if addr = INADDR_BROADCAST ∧ ia.broadcast then ia.broadaddr
    else addr

/-- The interface address for a socket without one; `ifp` is the interface of its route, if that is not
the loopback. -/
def Ifs.laddr (ifs : Ifs) (ifp : Option Nat) (faddr : InAddr) : Option InAddr :=
  let ia := ifp.bind fun ifp => ifs.inIfaddr.find? fun ia => ia.ifp = ifp
  (((ia.or (ifs.ifwithdstaddr faddr)).or (ifs.iaonnetof faddr)).or ifs.inIfaddr.head?).map (·.addr)

/-- `in_pcbconnect` once the two addresses are known. -/
def connectTo (ifs : Ifs) (inp : Inpcb) (faddr : InAddr) (fport : Port) (laddr : InAddr) : Except Errno (Option Pcbs) :=
  if (inPcblookup s.pcbs ⟨faddr, fport, laddr, inp.tuple.lport⟩ false).isSome then .error .EADDRINUSE
  else
    let connect (s : Pcbs) : Pcbs :=
      s.update inp.id fun inp => { inp with tuple := ⟨faddr, fport, laddr, inp.tuple.lport⟩ }
    if inp.tuple.laddr = INADDR_ANY ∧ inp.tuple.lport = 0 then
      match inPcbbind s ifs inp none false with
      | .ok s' => .ok (s'.map connect)
      | .error _ => .ok (some (connect s))
    else .ok (some (connect s))

/-- `in_pcbconnect` -/
def inPcbconnect (ifs : Ifs) (ifp : Option Nat) (inp : Inpcb) (sin : SockaddrIn) : Except Errno (Option Pcbs) :=
  if sin.lenOk = false then .error .EINVAL
  else if sin.inet = false then .error .EAFNOSUPPORT
  else if sin.port = 0 then .error .EADDRNOTAVAIL
  else
    let faddr := ifs.faddr sin.addr
    if inp.tuple.laddr = INADDR_ANY then
      match ifs.laddr ifp faddr with
      | none => .error .EADDRNOTAVAIL
      | some laddr => connectTo s ifs inp faddr sin.port laddr
    else connectTo s ifs inp faddr sin.port inp.tuple.laddr

/-- `in_pcbdetach` -/
def inPcbdetach (id : Nat) : Pcbs := { s with pcbs := s.pcbs.filter fun inp => inp.id ≠ id }

/-- `in_pcbdisconnect` -/
def inPcbdisconnect (inp : Inpcb) : Pcbs :=
  let s := s.update inp.id fun inp => { inp with tuple := { inp.tuple with faddr := INADDR_ANY, fport := 0 } }
  if inp.so.nofdref then inPcbdetach s inp.id else s

/-! ## The search of `tcp_input` -/

/-- What the cached pcb has for addresses; `none` is memory that was freed. -/
def Pcbs.cached : Option Tuple :=
  match s.last with
  | .head => some ⟨INADDR_ANY, 0, INADDR_ANY, s.headLport⟩
  | .pcb id => (s.get? id).map (·.tuple)

/-- `findpcb` of `tcp_input`: the pcb or the head, and the state; `none` reads freed memory. -/
def findpcb (ti : Tuple) : Option (Option Ref × Pcbs) :=
  s.cached.map fun t =>
    if t = ti then (some s.last, s)
    else match inPcblookup s.pcbs ti true with
      | none => (none, s)
      | some inp => (some (.pcb inp.id), { s with last := .pcb inp.id })

/-- `tcp_close`, as far as the pcb goes. -/
def tcpClose (id : Nat) : Pcbs :=
  inPcbdetach { s with last := if s.last = .pcb id then .head else s.last } id

/-- What a segment without a connection brings: its flags, the interface of the route to its source, and
which of the allocations for it succeed. -/
structure Request where
  ifp : Option Nat
  rst : Bool
  ack : Bool
  syn : Bool
  bcast : Bool
  newconn : Bool
  name : Bool
  template : Bool

/-- The `TCPS_LISTEN` case of `tcp_input` from `in_pcbconnect` on: the new pcb goes unless it is connected. -/
def acceptRequest (ifs : Ifs) (new : Inpcb) (ti : Tuple) (r : Request) : Option Pcbs :=
  match inPcbconnect s ifs r.ifp new ⟨true, true, ti.faddr, ti.fport⟩ with
  | .error _ => some (tcpClose s new.id)
  | .ok none => none
  | .ok (some s) => if r.template then some s else some (tcpClose s new.id)

/-- `tcp_input` on a listening socket: the socket for the connection is `id`, and is dropped when the request is. -/
def tcpListen (ifs : Ifs) (listener : Inpcb) (ti : Tuple) (r : Request) (id : Nat) : Option Pcbs :=
  if r.newconn = false then some s
  else
    let new : Inpcb := ⟨id, ⟨INADDR_ANY, 0, ti.laddr, ti.lport⟩, { listener.so with acceptconn := false, nofdref := true }⟩
    let s := { s with pcbs := new :: s.pcbs }
    if r.rst || r.ack || !r.syn || r.bcast || !r.name then some (tcpClose s id)
    else acceptRequest s ifs new ti r

/-- `tcp_input`, as far as the pcbs go. -/
def tcpInput (ifs : Ifs) (ti : Tuple) (r : Request) (id : Nat) : Option Pcbs :=
  match findpcb s ti with
  | none => none
  | some (some (.pcb i), s) =>
    match s.get? i with
    | none => some s
    | some inp => if inp.so.acceptconn then tcpListen s ifs inp ti r id else some s
  | some (_, s) => some s

/-! ## Runs -/

/-- The calls that change the pcbs of a protocol. `tcp_input` gets the address of the pcb it may make. -/
inductive Op where
  | alloc (id : Nat) (so : Socket)
  | setopt (id : Nat) (reuseaddr nofdref : Bool)
  | bind (ifs : Ifs) (id : Nat) (nam : Option SockaddrIn) (priv : Bool)
  | listen (ifs : Ifs) (id : Nat)
  | connect (ifs : Ifs) (ifp : Option Nat) (id : Nat) (sin : SockaddrIn)
  | disconnect (id : Nat)
  | close (id : Nat)
  | input (ifs : Ifs) (ti : Tuple) (r : Request) (id : Nat)

/-- The state after a call that may fail. -/
def done (s : Pcbs) : Except Errno (Option Pcbs) → Option Pcbs
  | .error _ => some s
  | .ok s' => s'

/-- `PRU_LISTEN` and `solisten` -/
def listen (ifs : Ifs) (inp : Inpcb) : Option Pcbs :=
  let accept (s : Pcbs) : Pcbs := s.update inp.id fun inp => { inp with so := { inp.so with acceptconn := true } }
  if inp.tuple.lport = 0 then
    match inPcbbind s ifs inp none false with
    | .error _ => some s
    | .ok s' => s'.map accept
  else some (accept s)

/-- A call; `none` is a kernel that hangs or has read freed memory. -/
def apply (s : Pcbs) : Op → Option Pcbs
  | .alloc id so => some (inPcballoc s id so)
  | .setopt id reuseaddr nofdref =>
    some (s.update id fun inp => { inp with so := { inp.so with reuseaddr := reuseaddr, nofdref := nofdref } })
  | .bind ifs id nam priv => ((s.get? id).map fun inp => done s (inPcbbind s ifs inp nam priv)).getD (some s)
  | .listen ifs id => ((s.get? id).map fun inp => listen s ifs inp).getD (some s)
  | .connect ifs ifp id sin => ((s.get? id).map fun inp => done s (inPcbconnect s ifs ifp inp sin)).getD (some s)
  | .disconnect id => some (((s.get? id).map fun inp => inPcbdisconnect s inp).getD s)
  | .close id => some (tcpClose s id)
  | .input ifs ti r id => tcpInput s ifs ti r id

def step (s : Option Pcbs) (op : Op) : Option Pcbs := s.bind fun s => apply s op

/-- A protocol without pcbs. -/
def noPcbs (connrequired : Bool) : Pcbs := ⟨connrequired, 0, [], .head⟩

/-- A new pcb is in memory that is not in use, and its socket does not listen. -/
def Legal (s : Option Pcbs) (op : Op) : Prop :=
  ∀ t, s = some t → match op with
    | .alloc id so => (∀ inp ∈ t.pcbs, inp.id ≠ id) ∧ so.acceptconn = false
    | .input _ _ _ id => ∀ inp ∈ t.pcbs, inp.id ≠ id
    | _ => True

/-- The port that a socket without one gets when it connects is that of a pcb with the same connection. -/
def PortClash (s : Pcbs) (so : Socket) (faddr : InAddr) (fport : Port) (laddr : InAddr) : Prop :=
  ∃ k, (∀ j ≤ k, s.taken INADDR_ANY (s.wild so) (nextPort^[j + 1] s.headLport) = decide (j < k)) ∧
    ∃ x ∈ s.pcbs, x.tuple = ⟨faddr, fport, laddr, htons (nextPort^[k + 1] s.headLport)⟩

/-- The call does not connect a socket to the port of another such connection, and does not free the
cached pcb in `in_pcbdisconnect`. -/
def Fits (s : Option Pcbs) (op : Op) : Prop :=
  ∀ t, s = some t → match op with
    | .connect ifs ifp id sin => ∀ inp laddr, t.get? id = some inp → inp.tuple.laddr = INADDR_ANY →
        inp.tuple.lport = 0 → ifs.laddr ifp (ifs.faddr sin.addr) = some laddr →
        ¬PortClash t inp.so (ifs.faddr sin.addr) sin.port laddr
    | .disconnect id => ∀ inp, t.get? id = some inp → inp.so.nofdref = true → t.last ≠ .pcb id
    | _ => True

/-- A segment from the unspecified address and port meets no cached pcb behind another one it matches, and
not the head. -/
def CacheFits (s : Pcbs) (ti : Tuple) : Prop :=
  ti.faddr = INADDR_ANY → s.cached = some ti → ∃ l x r, s.pcbs = l ++ x :: r ∧ s.last = .pcb x.id ∧
    ∀ y ∈ l, wildcards ti y.tuple ≠ some 0

/-- What the claims of the lookups rest on. -/
structure Good (s : Pcbs) : Prop where
  /-- No two pcbs have the same connection. -/
  unique : s.pcbs.Pairwise fun x y => x.tuple.faddr ≠ INADDR_ANY → x.tuple ≠ y.tuple
  /-- A lookup finds a pcb with the fewest wildcards, if any matches. -/
  fewest : ∀ q wildcard, match inPcblookup s.pcbs q wildcard with
    | none => ∀ y ∈ s.pcbs, ∀ w, wildcards q y.tuple = some w → w ≠ 0 ∧ wildcard = false
    | some x => x ∈ s.pcbs ∧ ∃ w, wildcards q x.tuple = some w ∧ (wildcard = false → w = 0) ∧
        ∀ y ∈ s.pcbs, ∀ v, wildcards q y.tuple = some v → w ≤ v
  /-- An exact match does not depend on the order of the list. -/
  order : ∀ l, l.Perm s.pcbs → ∀ q wildcard x, inPcblookup s.pcbs q wildcard = some x →
    wildcards q x.tuple = some 0 → (q.faddr = INADDR_ANY → ∀ y ∈ s.pcbs, wildcards q y.tuple = some 0 → y = x) →
    inPcblookup l q wildcard = some x
  /-- The cache yields what the lookup does. -/
  cache : ∀ ti, CacheFits s ti →
    (findpcb s ti).map (·.1) = some ((inPcblookup s.pcbs ti true).map fun inp => .pcb inp.id)

/-! ## What a lookup finds -/

section Lookup
variable {q p : Tuple} {l : List Inpcb} {x : Inpcb} {wildcard : Bool}

theorem wildcards_le {w : Nat} (h : wildcards q p = some w) : w < 3 := by
  unfold wildcards at h
  grind

theorem wildcards_self (q : Tuple) : wildcards q q = some 0 := by
  unfold wildcards
  by_cases hl : q.laddr = INADDR_ANY <;> by_cases hf : q.faddr = INADDR_ANY <;> simp [hl, hf]

theorem eq_of_exact (h : wildcards q p = some 0) (hq : q.faddr ≠ INADDR_ANY) : p = q := by
  obtain ⟨pf, pp, pl, plp⟩ := p
  obtain ⟨qf, qp, ql, qlp⟩ := q
  simp only at hq
  unfold wildcards at h
  by_cases hport : plp = qlp <;> by_cases hpl : pl = INADDR_ANY <;> by_cases hql : ql = INADDR_ANY <;>
    by_cases hll : pl = ql <;> by_cases hpf : pf = INADDR_ANY <;> simp_all

theorem lport_of_match {w : Nat} (h : wildcards q p = some w) : p.lport = q.lport := by
  by_contra hne
  rw [wildcards, if_pos hne] at h
  cases h

/-- The loop keeps a match with the fewest wildcards so far. -/
theorem lookupLoop_spec (q : Tuple) (wildcard : Bool) (l : List Inpcb) (found : Option Inpcb) (m : Nat) (hnone : found = none → m = 3)
    (hsome : ∀ x, found = some x → wildcards q x.tuple = some m ∧ (wildcard = false → m = 0)) :
    match lookupLoop q wildcard l found m with
    | none => found = none ∧ ∀ y ∈ l, ∀ w, wildcards q y.tuple = some w → w ≠ 0 ∧ wildcard = false
    | some x => (x ∈ l ∨ found = some x) ∧ ∃ w ≤ m, wildcards q x.tuple = some w ∧ (wildcard = false → w = 0) ∧
        ∀ y ∈ l, ∀ v, wildcards q y.tuple = some v → w ≤ v := by
  induction l generalizing found m with
  | nil =>
    cases found with
    | none => simp [lookupLoop]
    | some x =>
      obtain ⟨hw, hm⟩ := hsome x rfl
      exact ⟨.inr rfl, m, Nat.le_refl m, hw, hm, by simp⟩
  | cons inp l ih =>
    rw [lookupLoop]
    cases hw : wildcards q inp.tuple with
    | none =>
      have := ih found m hnone hsome
      revert this
      cases lookupLoop q wildcard l found m <;> grind
    | some w =>
      have hlt := wildcards_le hw
      simp only
      split_ifs with hskip hless hzero
      · have := ih found m hnone hsome
        revert this
        cases lookupLoop q wildcard l found m <;> grind
      · exact ⟨.inl List.mem_cons_self, w, Nat.le_of_lt hless, hw, fun _ => hzero, fun _ _ v _ => hzero ▸ Nat.zero_le v⟩
      · have := ih (some inp) w (by simp) (by grind)
        revert this
        cases lookupLoop q wildcard l (some inp) w <;> grind
      · have := ih found m hnone hsome
        revert this
        cases lookupLoop q wildcard l found m <;> grind

theorem inPcblookup_spec (l : List Inpcb) (q : Tuple) (wildcard : Bool) :
    match inPcblookup l q wildcard with
    | none => ∀ y ∈ l, ∀ w, wildcards q y.tuple = some w → w ≠ 0 ∧ wildcard = false
    | some x => x ∈ l ∧ ∃ w, wildcards q x.tuple = some w ∧ (wildcard = false → w = 0) ∧
        ∀ y ∈ l, ∀ v, wildcards q y.tuple = some v → w ≤ v := by
  have h := lookupLoop_spec q wildcard l none 3 (fun _ => rfl) (by simp)
  unfold inPcblookup
  revert h
  cases lookupLoop q wildcard l none 3 with
  | none => exact And.right
  | some x =>
    rintro ⟨hx, w, -, hw⟩
    exact ⟨hx.resolve_right (by simp), w, hw⟩

theorem exact_of_some (h : inPcblookup l q wildcard = some x) : x ∈ l ∧ ∃ w, wildcards q x.tuple = some w ∧
    ∀ y ∈ l, ∀ v, wildcards q y.tuple = some v → w ≤ v := by
  have := inPcblookup_spec l q wildcard
  rw [h] at this
  obtain ⟨hx, w, hw, -, hmin⟩ := this
  exact ⟨hx, w, hw, hmin⟩

theorem no_exact_of_none (h : inPcblookup l q wildcard = none) {y : Inpcb} (hy : y ∈ l) : wildcards q y.tuple ≠ some 0 := by
  have := inPcblookup_spec l q wildcard
  rw [h] at this
  exact fun he => (this y hy 0 he).1 rfl

theorem exists_exact (wildcard : Bool) {y : Inpcb} (hy : y ∈ l) (he : wildcards q y.tuple = some 0) :
    ∃ x ∈ l, inPcblookup l q wildcard = some x ∧ wildcards q x.tuple = some 0 := by
  cases h : inPcblookup l q wildcard with
  | none => exact absurd he (no_exact_of_none h hy)
  | some x =>
    obtain ⟨hx, w, hw, hmin⟩ := exact_of_some h
    obtain rfl : w = 0 := Nat.le_zero.1 (hmin y hy 0 he)
    exact ⟨x, hx, rfl, hw⟩

/-- The first exact match is the one that is returned. -/
theorem lookup_first {a b : List Inpcb} (hx : wildcards q x.tuple = some 0)
    (ha : ∀ y ∈ a, wildcards q y.tuple ≠ some 0) : inPcblookup (a ++ x :: b) q wildcard = some x := by
  have hgo : ∀ (a : List Inpcb) found m, 0 < m → (∀ y ∈ a, wildcards q y.tuple ≠ some 0) →
      lookupLoop q wildcard (a ++ x :: b) found m = some x := by
    intro a
    induction a with
    | nil => intro found m hm _; simp [lookupLoop, hx, hm]
    | cons y a ih =>
      intro found m hm ha
      have hy := ha y List.mem_cons_self
      have ha := fun z hz => ha z (List.mem_cons_of_mem y hz)
      rw [List.cons_append, lookupLoop]
      cases hw : wildcards q y.tuple with
      | none => exact ih found m hm ha
      | some w =>
        have hw0 : w ≠ 0 := by rintro rfl; exact hy hw
        simp only [if_neg hw0]
        split_ifs
        · exact ih found m hm ha
        · exact ih (some y) w (Nat.pos_of_ne_zero hw0) ha
        · exact ih found m hm ha
  exact hgo a none 3 (by decide) ha

end Lookup

/-! ## The invariant -/

/-- No two pcbs are at one address or have one connection, the cached pcb is on the list, and a pcb without
a port has no address and does not listen. -/
structure Kept (s : Pcbs) : Prop where
  ids : (s.pcbs.map (·.id)).Nodup
  unique : ∀ x ∈ s.pcbs, ∀ y ∈ s.pcbs, x.id ≠ y.id → x.tuple.faddr ≠ INADDR_ANY → x.tuple ≠ y.tuple
  live : ∀ id, s.last = .pcb id → ∃ x ∈ s.pcbs, x.id = id
  unbound : ∀ x ∈ s.pcbs, x.tuple.lport = 0 →
    x.tuple.laddr = INADDR_ANY ∧ x.tuple.faddr = INADDR_ANY ∧ x.so.acceptconn = false
  counter : s.headLport ≤ IPPORT_USERRESERVED

variable {s} {l : List Inpcb} {x y inp : Inpcb} {id : Nat}

theorem get?_some (h : s.get? id = some inp) : inp ∈ s.pcbs ∧ inp.id = id :=
  ⟨List.mem_of_find?_eq_some h, by simpa using List.find?_some h⟩

theorem Kept.get? (h : Kept s) (hx : x ∈ s.pcbs) : s.get? x.id = some x := by
  unfold Pcbs.get?
  have hids := h.ids
  revert hx hids
  induction s.pcbs with
  | nil => simp
  | cons y l ih =>
    intro hx hids
    rw [List.map_cons, List.nodup_cons] at hids
    rcases List.mem_cons.1 hx with rfl | hx
    · simp
    · have hne : y.id ≠ x.id := fun he => hids.1 (he ▸ List.mem_map_of_mem hx)
      rw [List.find?_cons_of_neg (by simpa using hne)]
      exact ih hx hids.2

theorem Kept.eq_of_id (h : Kept s) (hx : x ∈ s.pcbs) (hy : y ∈ s.pcbs) (he : x.id = y.id) : x = y :=
  Option.some.inj ((h.get? hx).symm.trans (he ▸ h.get? hy))

/-- A pcb changes its addresses to a connection no other pcb has. -/
theorem Kept.update (h : Kept s) (f : Inpcb → Inpcb) (hid : ∀ x, (f x).id = x.id)
    (hf : ∀ x ∈ s.pcbs, x.id = id →
      ((f x).tuple.lport = 0 →
        (f x).tuple.laddr = INADDR_ANY ∧ (f x).tuple.faddr = INADDR_ANY ∧ (f x).so.acceptconn = false) ∧
      ((f x).tuple.faddr ≠ INADDR_ANY → ∀ y ∈ s.pcbs, y.id ≠ id → (f x).tuple ≠ y.tuple)) : Kept (s.update id f) := by
  have hids : ∀ x : Inpcb, (if x.id = id then f x else x).id = x.id := fun x => by split_ifs <;> simp [hid]
  constructor
  · have : (s.pcbs.map fun x => if x.id = id then f x else x).map (·.id) = s.pcbs.map (·.id) := by
      rw [List.map_map]
      exact List.map_congr_left fun x _ => hids x
    rw [Pcbs.update, this]
    exact h.ids
  · intro x' hx' y' hy' hne hconn
    obtain ⟨x, hx, rfl⟩ := List.mem_map.1 hx'
    obtain ⟨y, hy, rfl⟩ := List.mem_map.1 hy'
    rw [hids, hids] at hne
    by_cases hxi : x.id = id
    · rw [if_pos hxi] at hconn ⊢
      rw [if_neg (fun hy => hne (hxi.trans hy.symm))]
      exact (hf x hx hxi).2 hconn y hy fun hyi => hne (hxi.trans hyi.symm)
    · rw [if_neg hxi] at hconn ⊢
      split_ifs with hyi
      · exact fun he => (hf y hy hyi).2 (he ▸ hconn) x hx hxi he.symm
      · exact h.unique x hx y hy hne hconn
  · intro i hi
    obtain ⟨x, hx, rfl⟩ := h.live i hi
    exact ⟨_, List.mem_map_of_mem hx, hids x⟩
  · intro x' hx'
    obtain ⟨x, hx, rfl⟩ := List.mem_map.1 hx'
    split_ifs with hxi
    · exact (hf x hx hxi).1
    · exact h.unbound x hx
  · exact h.counter

/-- A new pcb without a connection. -/
theorem Kept.cons (h : Kept s) (inp : Inpcb) (hid : ∀ x ∈ s.pcbs, x.id ≠ inp.id) (hf : inp.tuple.faddr = INADDR_ANY)
    (hl : inp.tuple.lport = 0 → inp.tuple.laddr = INADDR_ANY ∧ inp.so.acceptconn = false) :
    Kept { s with pcbs := inp :: s.pcbs } := by
  constructor
  · refine List.nodup_cons.2 ⟨fun hm => ?_, h.ids⟩
    obtain ⟨x, hx, he⟩ := List.mem_map.1 hm
    exact hid x hx he
  · intro x hx y hy hne hconn he
    rcases List.mem_cons.1 hx with rfl | hx
    · exact hconn hf
    · rcases List.mem_cons.1 hy with rfl | hy
      · exact hconn (he ▸ hf)
      · exact h.unique x hx y hy hne hconn he
  · intro i hi
    obtain ⟨x, hx, he⟩ := h.live i hi
    exact ⟨x, List.mem_cons_of_mem _ hx, he⟩
  · intro x hx h0
    rcases List.mem_cons.1 hx with rfl | hx
    · exact ⟨(hl h0).1, hf, (hl h0).2⟩
    · exact h.unbound x hx h0
  · exact h.counter

theorem Kept.detach (h : Kept s) (hlast : s.last ≠ .pcb id) : Kept (inPcbdetach s id) := by
  have hmem : ∀ {x}, x ∈ (inPcbdetach s id).pcbs → x ∈ s.pcbs := fun hx => List.mem_of_mem_filter hx
  constructor
  · exact (List.filter_sublist.map _).nodup h.ids
  · exact fun x hx y hy => h.unique x (hmem hx) y (hmem hy)
  · intro i hi
    obtain ⟨x, hx, rfl⟩ := h.live i hi
    exact ⟨x, List.mem_filter.2 ⟨hx, by simpa using fun he => hlast (by rw [← he]; exact hi)⟩, rfl⟩
  · exact fun x hx => h.unbound x (hmem hx)
  · exact h.counter

theorem Kept.relast (h : Kept s) {r : Ref} (hr : ∀ id, r = .pcb id → ∃ x ∈ s.pcbs, x.id = id) :
    Kept { s with last := r } :=
  ⟨h.ids, h.unique, hr, h.unbound, h.counter⟩

theorem Kept.close (h : Kept s) (id : Nat) : Kept (tcpClose s id) := by
  refine Kept.detach (h.relast fun i hi => ?_) ?_
  · split_ifs at hi
    exact h.live i hi
  · show (if s.last = .pcb id then Ref.head else s.last) ≠ .pcb id
    split_ifs with hl
    · exact nofun
    · exact hl

/-! ## Ports -/

variable {p : BitVec 16} {laddr faddr : InAddr} {lport : Port} {ti : Tuple} {r : Request}

theorem htons_ne_zero (hp : p ≠ 0) : htons p ≠ 0 := by
  intro h
  apply hp
  ext i hi
  have hbit : ∀ j, (htons p).getLsbD j = false := by simp [h]
  have hlo := hbit (i + 8)
  have hhi := hbit (i - 8)
  simp only [htons, BitVec.getLsbD_or, BitVec.getLsbD_shiftLeft, BitVec.getLsbD_ushiftRight] at hlo hhi
  interval_cases i <;> simp_all

theorem nextPort_spec (hp : p ≤ IPPORT_USERRESERVED) : nextPort p ≤ IPPORT_USERRESERVED ∧ nextPort p ≠ 0 := by
  unfold nextPort
  split_ifs with h
  · exact ⟨by decide, by decide⟩
  · simp only [IPPORT_RESERVED, IPPORT_USERRESERVED] at *
    constructor
    · bv_omega
    · bv_omega

theorem pickPort_spec {wild : Bool} {n : Nat} {h : BitVec 16} (hp : pickPort s laddr wild n h = some p) :
    ∃ k, p = nextPort^[k + 1] h ∧ ∀ j ≤ k, s.taken laddr wild (nextPort^[j + 1] h) = decide (j < k) := by
  induction n generalizing h with
  | zero => cases hp
  | succ n ih =>
    rw [pickPort] at hp
    split_ifs at hp with htaken
    · obtain ⟨k, hk, hturns⟩ := ih hp
      refine ⟨k + 1, hk, fun j hj => ?_⟩
      cases j with
      | zero => simpa using htaken
      | succ j => simpa using hturns j (by omega)
    · obtain rfl := Option.some.inj hp
      refine ⟨0, rfl, fun j hj => ?_⟩
      obtain rfl := Nat.le_zero.1 hj
      simpa using htaken

theorem nextPort_iterate (hp : p ≤ IPPORT_USERRESERVED) (k : Nat) :
    nextPort^[k + 1] p ≤ IPPORT_USERRESERVED ∧ nextPort^[k + 1] p ≠ 0 := by
  induction k with
  | zero => exact nextPort_spec hp
  | succ k ih =>
    rw [Function.iterate_succ_apply']
    exact nextPort_spec ih.1

/-! ## The calls keep the invariant -/

section Calls
variable {s' : Pcbs} {ifs : Ifs} {ifp : Option Nat} {sin : SockaddrIn}

theorem Kept.counter_set (h : Kept s) (hp : p ≤ IPPORT_USERRESERVED) : Kept { s with headLport := p } :=
  ⟨h.ids, h.unique, h.live, h.unbound, hp⟩

theorem Kept.bind_update (h : Kept s) (hinp : inp ∈ s.pcbs) (hf : inp.tuple.faddr = INADDR_ANY) {a : InAddr}
    (hp : lport ≠ 0) :
    Kept (s.update inp.id fun inp => { inp with tuple := { inp.tuple with laddr := a, lport := lport } }) := by
  refine h.update _ (fun _ => rfl) fun x hx hid => ⟨fun h0 => absurd h0 hp, fun hc => ?_⟩
  obtain rfl := h.eq_of_id hx hinp hid
  exact absurd hf hc

theorem update_local (id : Nat) (laddr : InAddr) (lport : Port) (c : BitVec 16) :
    { s.update id fun inp => { inp with tuple := { inp.tuple with laddr := laddr } } with headLport := c }.update id
        (fun inp => { inp with tuple := { inp.tuple with lport := lport } }) =
      { s with headLport := c }.update id fun inp => { inp with tuple := { inp.tuple with laddr := laddr, lport := lport } } := by
  simp only [Pcbs.update, List.map_map]
  congr 1
  refine List.map_congr_left fun x _ => ?_
  by_cases hx : x.id = id
  · simp [hx]
  · simp [hx]

theorem update_laddr_self (hids : (s.pcbs.map (·.id)).Nodup) (hinp : inp ∈ s.pcbs) :
    (s.update inp.id fun x => { x with tuple := { x.tuple with laddr := inp.tuple.laddr } }) = s := by
  have hmap : (s.pcbs.map fun x => if x.id = inp.id then
      { x with tuple := { x.tuple with laddr := inp.tuple.laddr } } else x) = s.pcbs.map id := by
    refine List.map_congr_left fun x hx => ?_
    split_ifs with hid
    · obtain rfl := List.inj_on_of_nodup_map hids hx hinp hid
      rfl
    · rfl
  rw [Pcbs.update, hmap, List.map_id]

theorem bindPort_some (h : Kept s) (hb : bindPort s inp laddr lport = some s') :
    ∃ c ≤ IPPORT_USERRESERVED, ∃ p ≠ 0, s' = { s with headLport := c }.update inp.id fun inp =>
      { inp with tuple := { inp.tuple with laddr := laddr, lport := p } } := by
  simp only [bindPort] at hb
  split_ifs at hb with hz
  · obtain ⟨p, hp, rfl⟩ := Option.map_eq_some_iff.1 hb
    obtain ⟨k, rfl, -⟩ := pickPort_spec hp
    have hk := nextPort_iterate h.counter k
    exact ⟨_, hk.1, _, htons_ne_zero hk.2, update_local _ _ _ _⟩
  · obtain rfl := Option.some.inj hb
    exact ⟨s.headLport, h.counter, lport, hz, update_local _ _ _ _⟩

theorem Kept.bindPort (h : Kept s) (hinp : inp ∈ s.pcbs) (hf : inp.tuple.faddr = INADDR_ANY)
    (hb : bindPort s inp laddr lport = some s') : Kept s' := by
  obtain ⟨c, hc, p, hp, rfl⟩ := bindPort_some h hb
  exact (h.counter_set hc).bind_update hinp hf hp

theorem Kept.bind (h : Kept s) (hinp : inp ∈ s.pcbs) {nam : Option SockaddrIn} {priv : Bool}
    (hb : inPcbbind s ifs inp nam priv = .ok (some s')) : Kept s' := by
  unfold inPcbbind at hb
  split_ifs at hb with hif hset
  rw [not_or, not_not, not_not] at hset
  have hf := (h.unbound inp hinp hset.1).2.1
  cases nam with
  | none => exact h.bindPort hinp hf (Except.ok.inj hb)
  | some sin =>
    simp only at hb
    split_ifs at hb
    exact h.bindPort hinp hf (Except.ok.inj hb)

theorem Kept.connect_update (h : Kept s) (hinp : inp ∈ s.pcbs) (hp : inp.tuple.lport ≠ 0) {fport : Port}
    (hn : ∀ y ∈ s.pcbs, y.id ≠ inp.id → faddr ≠ INADDR_ANY → y.tuple ≠ ⟨faddr, fport, laddr, inp.tuple.lport⟩) :
    Kept (s.update inp.id fun inp => { inp with tuple := ⟨faddr, fport, laddr, inp.tuple.lport⟩ }) := by
  refine h.update _ (fun _ => rfl) fun x hx hid => ?_
  obtain rfl := h.eq_of_id hx hinp hid
  exact ⟨fun h0 => absurd h0 hp, fun hc y hy hne he => hn y hy hne hc he.symm⟩

theorem Kept.connectTo (h : Kept s) (hinp : inp ∈ s.pcbs) {fport : Port}
    (hc : connectTo s ifs inp faddr fport laddr = .ok (some s'))
    (hifs : inp.tuple.laddr = INADDR_ANY → ifs.inIfaddr ≠ [])
    (hclash : inp.tuple.laddr = INADDR_ANY → inp.tuple.lport = 0 → ¬PortClash s inp.so faddr fport laddr) :
    Kept s' := by
  unfold Inet.connectTo at hc
  split_ifs at hc with hused hbind
  · -- the port is picked after the lookup
    rw [inPcbbind, if_neg (hifs hbind.1), if_neg (by simp [hbind])] at hc
    obtain ⟨s₁, hs₁, rfl⟩ := Option.map_eq_some_iff.1 (Except.ok.inj hc)
    rw [Inet.bindPort, if_pos rfl, hbind.1] at hs₁
    have hself := update_laddr_self h.ids hinp
    rw [hbind.1] at hself
    rw [hself] at hs₁
    obtain ⟨p, hp, rfl⟩ := Option.map_eq_some_iff.1 hs₁
    obtain ⟨k, rfl, hturns⟩ := pickPort_spec hp
    have hk := nextPort_iterate h.counter k
    have hlocal := update_local (s := s) inp.id INADDR_ANY (htons (nextPort^[k + 1] s.headLport)) (nextPort^[k + 1] s.headLport)
    rw [hself] at hlocal
    rw [hlocal]
    have hf := (h.unbound inp hinp hbind.2).2.1
    have h₁ := (h.counter_set hk.1).bind_update (a := INADDR_ANY) hinp hf (htons_ne_zero hk.2)
    have hinp₁ := List.mem_map_of_mem (f := fun x : Inpcb => if x.id = inp.id then
      { x with tuple := { x.tuple with laddr := INADDR_ANY, lport := htons (nextPort^[k + 1] s.headLport) } } else x) hinp
    rw [if_pos rfl] at hinp₁
    refine h₁.connect_update hinp₁ (htons_ne_zero hk.2) fun y hy hne _ he => ?_
    obtain ⟨x, hx, rfl⟩ := List.mem_map.1 hy
    by_cases hxi : x.id = inp.id
    · rw [if_pos hxi] at hne
      exact hne hxi
    · rw [if_neg hxi] at he
      exact hclash hbind.1 hbind.2 ⟨k, hturns, x, hx, he⟩
  · obtain rfl := Option.some.inj (Except.ok.inj hc)
    have hp : inp.tuple.lport ≠ 0 := fun h0 => hbind ⟨(h.unbound inp hinp h0).1, h0⟩
    refine h.connect_update hinp hp fun y hy hne _ he => ?_
    have hnone := Option.not_isSome_iff_eq_none.1 hused
    exact no_exact_of_none hnone hy (he ▸ wildcards_self _)

theorem Ifs.ne_nil_of_laddr (h : ifs.laddr ifp faddr = some laddr) : ifs.inIfaddr ≠ [] := by
  intro hnil
  have hdst : ifs.ifwithdstaddr faddr = none := by
    cases hd : ifs.ifwithdstaddr faddr with
    | none => rfl
    | some ia => simpa [hnil] using ifs.dst_mem faddr ia hd
  have hnet : ifs.iaonnetof faddr = none := by
    cases hd : ifs.iaonnetof faddr with
    | none => rfl
    | some ia => simpa [hnil] using ifs.net_mem faddr ia hd
  cases ifp <;> simp [Ifs.laddr, hnil, hdst, hnet] at h

theorem Kept.connect (h : Kept s) (hinp : inp ∈ s.pcbs) (hc : inPcbconnect s ifs ifp inp sin = .ok (some s'))
    (hclash : ∀ laddr, inp.tuple.laddr = INADDR_ANY → inp.tuple.lport = 0 → ifs.laddr ifp (ifs.faddr sin.addr) = some laddr →
      ¬PortClash s inp.so (ifs.faddr sin.addr) sin.port laddr) : Kept s' := by
  unfold inPcbconnect at hc
  split_ifs at hc with _ _ _ hany
  · cases hl : ifs.laddr ifp (ifs.faddr sin.addr) with
    | none => simp [hl] at hc
    | some laddr =>
      simp only [hl] at hc
      exact h.connectTo hinp hc (fun _ => Ifs.ne_nil_of_laddr hl) (fun ha hp => hclash laddr ha hp hl)
  · exact h.connectTo hinp hc (fun ha => absurd ha hany) (fun ha => absurd ha hany)

theorem Kept.disconnect (h : Kept s) (hlast : inp.so.nofdref = true → s.last ≠ .pcb inp.id) :
    Kept (inPcbdisconnect s inp) := by
  have hu : Kept (s.update inp.id fun inp => { inp with tuple := { inp.tuple with faddr := INADDR_ANY, fport := 0 } }) :=
    h.update _ (fun _ => rfl) fun x hx _ =>
      ⟨fun h0 => ⟨(h.unbound x hx h0).1, rfl, (h.unbound x hx h0).2.2⟩, fun hc => absurd rfl hc⟩
  unfold inPcbdisconnect
  simp only
  split_ifs with hn
  · exact hu.detach (hlast hn)
  · exact hu

theorem Kept.accept_update (h : Kept s) (hp : ∀ x ∈ s.pcbs, x.id = id → x.tuple.lport ≠ 0) :
    Kept (s.update id fun inp => { inp with so := { inp.so with acceptconn := true } }) :=
  h.update _ (fun _ => rfl) fun x hx hid =>
    ⟨fun h0 => absurd h0 (hp x hx hid), fun hc y hy hne => h.unique x hx y hy (fun he => hne (he ▸ hid)) hc⟩

theorem Kept.listen (h : Kept s) (hinp : inp ∈ s.pcbs) (hl : listen s ifs inp = some s') : Kept s' := by
  unfold Inet.listen at hl
  simp only at hl
  split_ifs at hl with hz
  · obtain ⟨ha, hf, -⟩ := h.unbound inp hinp hz
    by_cases hnil : ifs.inIfaddr = []
    · rw [inPcbbind, if_pos hnil] at hl
      exact Option.some.inj hl ▸ h
    · rw [inPcbbind, if_neg hnil, if_neg (by simp [hz, ha])] at hl
      obtain ⟨s₁, hs₁, rfl⟩ := Option.map_eq_some_iff.1 hl
      refine (h.bindPort hinp hf hs₁).accept_update fun x hx hid => ?_
      obtain ⟨c, -, p, hp, rfl⟩ := bindPort_some h hs₁
      obtain ⟨y, -, rfl⟩ := List.mem_map.1 hx
      split_ifs at hid ⊢ with hy
      · exact hp
      · exact absurd hid hy
  · obtain rfl := Option.some.inj hl
    refine h.accept_update fun x hx hid => ?_
    rw [h.eq_of_id hx hinp hid]
    exact hz

theorem Kept.cached_some (h : Kept s) : ∃ t, s.cached = some t := by
  unfold Pcbs.cached
  cases hl : s.last with
  | head => exact ⟨_, rfl⟩
  | pcb id =>
    obtain ⟨x, hx, rfl⟩ := h.live id hl
    exact ⟨x.tuple, by simp [h.get? hx]⟩

/-- The search leaves the pcbs as they are, and what it finds is the head or has the port. -/
theorem Kept.findpcb (h : Kept s) (ti : Tuple) : ∃ r s₁, findpcb s ti = some (r, s₁) ∧ Kept s₁ ∧ s₁.pcbs = s.pcbs ∧
    ∀ id inp, r = some (.pcb id) → s.get? id = some inp → inp.tuple.lport = ti.lport := by
  obtain ⟨t, ht⟩ := h.cached_some
  rw [Inet.findpcb, ht, Option.map_some]
  split_ifs with hti
  · refine ⟨_, s, rfl, h, rfl, fun id inp hr hg => ?_⟩
    rw [Pcbs.cached, Option.some.inj hr] at ht
    simp only [hg, Option.map_some, Option.some.injEq] at ht
    rw [ht, hti]
  · cases hlook : inPcblookup s.pcbs ti true with
    | none => exact ⟨none, s, rfl, h, rfl, nofun⟩
    | some x =>
      obtain ⟨hx, w, hw, -⟩ := exact_of_some hlook
      refine ⟨_, _, rfl, h.relast fun id hid => ⟨x, hx, Ref.pcb.inj hid⟩, rfl, fun id inp hr hg => ?_⟩
      obtain rfl := Ref.pcb.inj (Option.some.inj hr)
      rw [h.get? hx] at hg
      rw [← Option.some.inj hg]
      exact lport_of_match hw

theorem Kept.acceptRequest (h : Kept s) (hinp : inp ∈ s.pcbs) (hp : inp.tuple.lport ≠ 0)
    (ha : acceptRequest s ifs inp ti r = some s') : Kept s' := by
  unfold Inet.acceptRequest at ha
  cases hc : inPcbconnect s ifs r.ifp inp ⟨true, true, ti.faddr, ti.fport⟩ with
  | error e =>
    rw [hc] at ha
    exact Option.some.inj ha ▸ h.close inp.id
  | ok res =>
    rw [hc] at ha
    cases res with
    | none => cases ha
    | some s₁ =>
      have h₁ := h.connect hinp hc fun _ _ h0 => absurd h0 hp
      simp only at ha
      split_ifs at ha
      · exact Option.some.inj ha ▸ h₁
      · exact Option.some.inj ha ▸ h₁.close inp.id

theorem Kept.tcpListen (h : Kept s) (hid : ∀ x ∈ s.pcbs, x.id ≠ id) (hp : ti.lport ≠ 0)
    (hl : tcpListen s ifs inp ti r id = some s') : Kept s' := by
  unfold Inet.tcpListen at hl
  have h₁ := h.cons ⟨id, ⟨INADDR_ANY, 0, ti.laddr, ti.lport⟩, { inp.so with acceptconn := false, nofdref := true }⟩
    hid rfl fun h0 => absurd h0 hp
  split_ifs at hl
  · exact Option.some.inj hl ▸ h
  · exact Option.some.inj hl ▸ h₁.close id
  · exact h₁.acceptRequest List.mem_cons_self hp hl

theorem Kept.input (h : Kept s) (hid : ∀ x ∈ s.pcbs, x.id ≠ id) (hi : tcpInput s ifs ti r id = some s') : Kept s' := by
  obtain ⟨res, s₁, hfind, h₁, hpcbs, hport⟩ := h.findpcb ti
  rw [tcpInput, hfind] at hi
  match res with
  | none => exact Option.some.inj hi ▸ h₁
  | some .head => exact Option.some.inj hi ▸ h₁
  | some (.pcb i) =>
    have hget : s₁.get? i = s.get? i := by rw [Pcbs.get?, Pcbs.get?, hpcbs]
    simp only at hi
    cases hg : s₁.get? i with
    | none => rw [hg] at hi; exact Option.some.inj hi ▸ h₁
    | some inp =>
      rw [hg] at hi
      simp only at hi
      split_ifs at hi with hacc
      · have hinp := (get?_some hg).1
        refine h₁.tcpListen (by rwa [hpcbs]) ?_ hi
        rw [← hport i inp rfl (hget ▸ hg)]
        intro h0
        rw [(h₁.unbound inp hinp h0).2.2] at hacc
        cases hacc
      · exact Option.some.inj hi ▸ h₁

end Calls

/-! ## Every run -/

theorem Kept.pairwise (h : Kept s) : s.pcbs.Pairwise fun x y => x.tuple.faddr ≠ INADDR_ANY → x.tuple ≠ y.tuple := by
  have hids : s.pcbs.Pairwise fun x y => x.id ≠ y.id := List.pairwise_map.1 h.ids
  exact hids.imp_of_mem fun hx hy hne => h.unique _ hx _ hy hne

theorem Kept.exact_eq (h : Kept s) {q : Tuple} (hq : q.faddr ≠ INADDR_ANY) (hx : x ∈ s.pcbs) (hy : y ∈ s.pcbs)
    (hwx : wildcards q x.tuple = some 0) (hwy : wildcards q y.tuple = some 0) : x = y := by
  by_contra hne
  have hid : x.id ≠ y.id := fun he => hne (h.eq_of_id hx hy he)
  have hxq := eq_of_exact hwx hq
  exact h.unique x hx y hy hid (hxq ▸ hq) (hxq.trans (eq_of_exact hwy hq).symm)

theorem Kept.order (h : Kept s) (hperm : l.Perm s.pcbs) {q : Tuple} {wildcard : Bool} (hx : inPcblookup s.pcbs q wildcard = some x)
    (hw : wildcards q x.tuple = some 0)
    (hany : q.faddr = INADDR_ANY → ∀ y ∈ s.pcbs, wildcards q y.tuple = some 0 → y = x) :
    inPcblookup l q wildcard = some x := by
  have hmem := (exact_of_some hx).1
  obtain ⟨y, hy, hlook, hwy⟩ := exists_exact wildcard (hperm.mem_iff.2 hmem) hw
  rw [hlook]
  have hy := hperm.mem_iff.1 hy
  by_cases hq : q.faddr = INADDR_ANY
  · rw [hany hq y hy hwy]
  · rw [h.exact_eq hq hy hmem hwy hw]

/-- The cached pcb is what the lookup returns. -/
theorem Kept.cache (h : Kept s) (hfits : CacheFits s ti) :
    (Inet.findpcb s ti).map (·.1) = some ((inPcblookup s.pcbs ti true).map fun inp => .pcb inp.id) := by
  obtain ⟨t, ht⟩ := h.cached_some
  rw [Inet.findpcb, ht, Option.map_some, Option.map_some]
  split_ifs with hti
  · subst hti
    by_cases hq : t.faddr = INADDR_ANY
    · obtain ⟨a, x, b, hpcbs, hlast, ha⟩ := hfits hq ht
      have hx : x ∈ s.pcbs := by simp [hpcbs]
      rw [Pcbs.cached, hlast] at ht
      simp only [h.get? hx, Option.map_some, Option.some.injEq] at ht
      rw [hpcbs, lookup_first (show wildcards t x.tuple = some 0 from ht ▸ wildcards_self x.tuple) ha, hlast]
      rfl
    · cases hlast : s.last with
      | head =>
        rw [Pcbs.cached, hlast] at ht
        exact absurd (congrArg Tuple.faddr (Option.some.inj ht)).symm hq
      | pcb id =>
        obtain ⟨x, hx, rfl⟩ := h.live id hlast
        rw [Pcbs.cached, hlast] at ht
        simp only [h.get? hx, Option.map_some, Option.some.injEq] at ht
        have hwx : wildcards t x.tuple = some 0 := ht ▸ wildcards_self x.tuple
        obtain ⟨y, hy, hlook, hwy⟩ := exists_exact true hx hwx
        rw [hlook, h.exact_eq hq hy hx hwy hwx]
        rfl
  · cases inPcblookup s.pcbs ti true <;> rfl

theorem Kept.good (h : Kept s) : Good s where
  unique := h.pairwise
  fewest := inPcblookup_spec s.pcbs
  order := fun _ hperm _ _ _ hx hw hany => h.order hperm hx hw hany
  cache := fun _ hfits => h.cache hfits

theorem Kept.apply (h : Kept s) (op : Op) (hlegal : Legal (some s) op) (hfits : Fits (some s) op) {s' : Pcbs}
    (hs : apply s op = some s') : Kept s' := by
  have hlegal := hlegal s rfl
  have hfits := hfits s rfl
  cases op with
  | alloc id so =>
    obtain rfl := Option.some.inj hs
    exact h.cons _ hlegal.1 rfl fun _ => ⟨rfl, hlegal.2⟩
  | setopt id reuseaddr nofdref =>
    obtain rfl := Option.some.inj hs
    exact h.update _ (fun _ => rfl) fun x hx hid =>
      ⟨h.unbound x hx, fun hc y hy hne => h.unique x hx y hy (fun he => hne (he ▸ hid)) hc⟩
  | bind ifs id nam priv =>
    cases hg : s.get? id with
    | none => exact Option.some.inj (by simpa [Inet.apply, hg] using hs) ▸ h
    | some inp =>
      simp only [Inet.apply, hg, Option.map_some, Option.getD_some] at hs
      cases hb : inPcbbind s ifs inp nam priv with
      | error e => exact Option.some.inj (hb ▸ hs) ▸ h
      | ok s₁ =>
        rw [hb, done] at hs
        exact h.bind (get?_some hg).1 (hs ▸ hb)
  | listen ifs id =>
    cases hg : s.get? id with
    | none => exact Option.some.inj (by simpa [Inet.apply, hg] using hs) ▸ h
    | some inp =>
      simp only [Inet.apply, hg, Option.map_some, Option.getD_some] at hs
      exact h.listen (get?_some hg).1 hs
  | connect ifs ifp id sin =>
    cases hg : s.get? id with
    | none => exact Option.some.inj (by simpa [Inet.apply, hg] using hs) ▸ h
    | some inp =>
      simp only [Inet.apply, hg, Option.map_some, Option.getD_some] at hs
      cases hc : inPcbconnect s ifs ifp inp sin with
      | error e => exact Option.some.inj (hc ▸ hs) ▸ h
      | ok s₁ =>
        rw [hc, done] at hs
        exact h.connect (get?_some hg).1 (hs ▸ hc) fun laddr => hfits inp laddr hg
  | disconnect id =>
    obtain rfl := Option.some.inj hs
    cases hg : s.get? id with
    | none => exact h
    | some inp =>
      obtain ⟨-, rfl⟩ := get?_some hg
      exact h.disconnect (hfits inp hg)
  | close id =>
    obtain rfl := Option.some.inj hs
    exact h.close id
  | input ifs ti r id => exact h.input hlegal hs

theorem kept_noPcbs (connrequired : Bool) : Kept (noPcbs connrequired) :=
  ⟨List.nodup_nil, by simp [noPcbs], nofun, by simp [noPcbs], show (0 : BitVec 16) ≤ IPPORT_USERRESERVED by decide⟩

/-- In every run in which no connection is given twice, no two pcbs have the same connection, a lookup
returns a pcb with the fewest wildcards, and the cache yields what the lookup does. -/
theorem pcb_runs (connrequired : Bool) (ops : List Op) (hl : Along step Legal (some (noPcbs connrequired)) ops)
    (hf : Along step Fits (some (noPcbs connrequired)) ops) :
    ∀ st ∈ states step (some (noPcbs connrequired)) ops, ∀ s, st = some s → Good s := by
  have hrun : ∀ st ∈ states step (some (noPcbs connrequired)) ops, ∀ s, st = some s → Kept s := by
    refine states_of_along ?_ ?_ ((along_and step Legal Fits _ ops).2 ⟨hl, hf⟩)
    · rintro (_ | s) op hs ⟨hlegal, hfits⟩ s' hs'
      · cases hs'
      · exact (hs s rfl).apply op hlegal hfits hs'
    · rintro s ⟨⟩
      exact kept_noPcbs connrequired
  exact fun st hst s hs => (hrun st hst s hs).good

/-- A socket that does not share its port gets one that no pcb has. -/
theorem not_portClash {so : Socket} (hso : s.wild so = true) (faddr : InAddr) (fport : Port) (laddr : InAddr) :
    ¬PortClash s so faddr fport laddr := by
  rintro ⟨k, hturns, x, hx, he⟩
  have hfree := hturns k (Nat.le_refl k)
  rw [decide_eq_false (Nat.lt_irrefl k), hso, Pcbs.taken, Option.isSome_eq_false_iff, Option.isNone_iff_eq_none] at hfree
  have hnone := inPcblookup_spec s.pcbs ⟨INADDR_ANY, 0, INADDR_ANY, htons (nextPort^[k + 1] s.headLport)⟩ true
  rw [hfree] at hnone
  have hmatch : ∃ w, wildcards ⟨INADDR_ANY, 0, INADDR_ANY, htons (nextPort^[k + 1] s.headLport)⟩ x.tuple = some w := by
    rw [he]
    unfold wildcards
    by_cases hl : laddr = INADDR_ANY <;> by_cases hf : faddr = INADDR_ANY <;> simp [hl, hf]
  obtain ⟨w, hw⟩ := hmatch
  cases (hnone x hx w hw).2

/-- One interface, 10.0.0.1. -/
def lan : Ifs := ⟨[⟨0x0100000a, 0xff00000a, 0, true⟩], fun a => a == 0x0100000a, fun _ => none, fun _ => none, nofun, nofun⟩

def sharing : Socket := ⟨true, false, false⟩

def plain : Socket := ⟨false, false, false⟩

/-- Port 53 of 10.0.0.2. -/
def server : SockaddrIn := ⟨true, true, 0x0200000a, htons 53⟩

/-- A socket bound to port 1024 connects, and a second one follows that gets its port there. -/
def twoClients (so : Socket) : List Op :=
  [.alloc 1 sharing, .bind lan 1 (some ⟨true, true, INADDR_ANY, htons 1024⟩) false, .connect lan none 1 server,
    .alloc 2 so, .connect lan none 2 server]

theorem legal_twoClients (so : Socket) (h : so.acceptconn = false) :
    Along step Legal (some (noPcbs false)) (twoClients so) := by
  refine ⟨?_, ?_, ?_, ?_, ?_, trivial⟩
  · rintro t ⟨⟩
    exact ⟨by simp [noPcbs], rfl⟩
  · rintro t ⟨⟩
    trivial
  · rintro t ⟨⟩
    trivial
  · rintro t ⟨⟩
    exact ⟨by decide, h⟩
  · rintro t -
    trivial

theorem pcb_runs_plain :
    Along step Legal (some (noPcbs false)) (twoClients plain) ∧ Along step Fits (some (noPcbs false)) (twoClients plain) ∧
      ∀ st ∈ states step (some (noPcbs false)) (twoClients plain), ∀ s, st = some s → Good s := by
  have hl := legal_twoClients plain rfl
  have hf : Along step Fits (some (noPcbs false)) (twoClients plain) := by
    refine ⟨?_, ?_, ?_, ?_, ?_, trivial⟩
    · rintro t ⟨⟩
      trivial
    · rintro t ⟨⟩
      trivial
    · rintro t ⟨⟩ inp laddr hg _ hp
      obtain rfl := Option.some.inj hg
      exact absurd hp (by decide)
    · rintro t ⟨⟩
      trivial
    · rintro t ⟨⟩ inp laddr hg _ _ _
      obtain rfl := Option.some.inj hg
      exact not_portClash (by decide) _ _ _
  exact ⟨hl, hf, pcb_runs false (twoClients plain) hl hf⟩

/-- A socket that listens at port 4, and the counter at 1024, which is port 4 in network order. -/
def headOps : List Op :=
  [.alloc 1 plain, .listen lan 1, .alloc 2 plain, .bind lan 2 (some ⟨true, true, INADDR_ANY, 1024⟩) true, .listen lan 2]

/-- Two sockets that share their ports get the same connection, and a segment from no address and port takes
the head for a pcb. -/
theorem pcb_connected_twice :
    (Along step Legal (some (noPcbs false)) (twoClients sharing) ∧
      ∃ s, final step (some (noPcbs false)) (twoClients sharing) = some s ∧
        ¬s.pcbs.Pairwise fun x y => x.tuple.faddr ≠ INADDR_ANY → x.tuple ≠ y.tuple) ∧
    ∃ s, final step (some (noPcbs true)) headOps = some s ∧
      (findpcb s ⟨INADDR_ANY, 0, INADDR_ANY, 1024⟩).map (·.1) = some (some .head) ∧
      (inPcblookup s.pcbs ⟨INADDR_ANY, 0, INADDR_ANY, 1024⟩ true).map (·.id) = some 2 :=
  ⟨⟨legal_twoClients sharing rfl, _, rfl, by decide⟩, _, rfl, by decide, by decide⟩

end BsdKernel.Inet
