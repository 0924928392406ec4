import BsdKernel.Lib.Command
import Mathlib.Logic.Function.Basic
/-!
# Routing entries

`net/route.c`: the entries of the routing table and their reference counts. The radix tree is a parameter with the
properties of a map, and so are the searches through the interfaces and the answers of the memory allocator. Messages to the routing sockets and the
statistics are left out, and the hooks `ifa_rtrequest`, which keep no reference.

An access to memory that is free stops, and so does a panic, a count that leaves the range of a `short` and a recursion
without an end.
-/

namespace BsdKernel.Route

open Lib Lib.Cmd

/-! ## Data -/

/-- The bits of `rt_flags` that are read, but for `RTF_UP`. -/
structure Flags where
  gateway : Bool
  host : Bool
  cloning : Bool
  xresolve : Bool
  done : Bool

/-- `|` -/
def Flags.or (f g : Flags) : Flags :=
  ⟨f.gateway || g.gateway, f.host || g.host, f.cloning || g.cloning, f.xresolve || g.xresolve, f.done || g.done⟩

/-- `struct rtentry`; `up` is `RTF_UP`, and `rt_ifp` is whether it is not null. -/
structure Rtentry (A F : Type) where
  rt_key : Option A
  rt_mask : Option A
  rt_gateway : Option A
  rt_flags : Flags
  up : Bool
  rt_refcnt : Int
  rt_ifp : Bool
  rt_ifa : Option F
  rt_genmask : Option A
  rt_gwroute : Option Nat

/-- The radix tree, as a map to the entries: a search finds an entry of the tree, an entry is added or not, and one is taken out. -/
structure Radix (A T : Type) where
  ids : T → List Nat
  matchaddr : T → A → Option Nat
  addaddr : T → A → Option A → Nat → Option T
  deladdr : T → A → Option A → Option (Nat × T)
  match_mem : ∀ t dst i, matchaddr t dst = some i → i ∈ ids t
  add_mem : ∀ t dst mask i t', addaddr t dst mask i = some t' → ∀ j, j ∈ ids t' ↔ j = i ∨ j ∈ ids t
  del_mem : ∀ t dst mask i t', deladdr t dst mask = some (i, t') → i ∈ ids t ∧ ∀ j, j ∈ ids t' ↔ j ∈ ids t ∧ j ≠ i

/-- What is known of addresses: `sa_len`, whether there is a table for the family, the bits left by a mask, and `equal`. -/
structure Addrs (A : Type) where
  sa_len : A → Nat
  table : A → Bool
  masked : A → A → A
  equal : A → A → Bool

/-- The interfaces: their addresses, and the searches through them. -/
structure Ifs (A F : Type) where
  ifwithnet : A → Option F
  ifwithaddr : A → Option F
  ifwithdstaddr : A → Option F
  ifaof : A → F → Option F
  sameFamily : F → A → Bool
  ifa_ifp : F → Bool
  ifa_addr : F → A
  ifa_dstaddr : F → A
  ifa_netmask : F → Option A
  ifa_flags : F → Flags

/-- The memory: entries and interface addresses, `none` where it is free. -/
structure Routes (A F T : Type) where
  mem : Nat → Option (Rtentry A F)
  next : Nat
  tree : T
  rttrash : Int
  ifa_refcnt : F → Option Int
  asked : Nat

inductive Stop
  | fault
  | panic
  | wrapped
  | diverged
  deriving DecidableEq

inductive Errno
  | EINVAL
  | EEXIST
  | ENOBUFS
  | ENETUNREACH
  | EHOSTUNREACH
  | ESRCH
  deriving DecidableEq

/-- `RTM_ADD`, `RTM_DELETE` and `RTM_RESOLVE` -/
inductive Req
  | add
  | delete
  | resolve
  deriving DecidableEq

variable {A F T : Type} [DecidableEq F]

/-- A function of the kernel. -/
abbrev RtM (A F T α : Type) : Type := Cmd (Routes A F T) Stop α

/-! ## Memory -/

/-- The entry at an address. -/
def load (i : Nat) : RtM A F T (Rtentry A F) := fun s =>
  match s.mem i with
  | some e => (.ok e, s)
  | none => (.error .fault, s)

def Routes.put (s : Routes A F T) (i : Nat) (e : Rtentry A F) : Routes A F T := { s with mem := Function.update s.mem i (some e) }

/-- A change of the entry at an address. -/
def store (i : Nat) (f : Rtentry A F → Rtentry A F) : RtM A F T Unit := load i >>= fun e => modify fun s => s.put i (f e)

/-- `rt_refcnt += d` -/
def addRef (i : Nat) (d : Int) : RtM A F T Unit :=
  load i >>= fun e =>
    if -32768 ≤ e.rt_refcnt + d ∧ e.rt_refcnt + d ≤ 32767 then store i fun e => { e with rt_refcnt := e.rt_refcnt + d }
    else fail .wrapped

/-- `ifa_refcnt` -/
def ifaCount (ifa : F) : RtM A F T Int := fun s =>
  match s.ifa_refcnt ifa with
  | some n => (.ok n, s)
  | none => (.error .fault, s)

def Routes.setIfa (s : Routes A F T) (ifa : F) (n : Option Int) : Routes A F T :=
  { s with ifa_refcnt := Function.update s.ifa_refcnt ifa n }

/-- `ifa_refcnt++` -/
def ifaHold (ifa : F) : RtM A F T Unit :=
  ifaCount ifa >>= fun n => if n + 1 ≤ 32767 then modify fun s => s.setIfa ifa (some (n + 1)) else fail .wrapped

/-- `ifafree` -/
def ifafree (ifa : F) : RtM A F T Unit :=
  ifaCount ifa >>= fun n => if n = 0 then modify fun s => s.setIfa ifa none else modify fun s => s.setIfa ifa (some (n - 1))

/-- `IFAFREE` -/
def IFAFREE : Option F → RtM A F T Unit
  | none => fail .fault
  | some ifa => ifaCount ifa >>= fun n => if n ≤ 0 then ifafree ifa else modify fun s => s.setIfa ifa (some (n - 1))

/-- `R_Malloc`: whether there is memory. -/
def rMalloc (malloc : Nat → Bool) : RtM A F T Bool := fun s => (.ok (malloc s.asked), { s with asked := s.asked + 1 })

/-- A new entry, of zeros. -/
def alloc (flags : Flags) : RtM A F T Nat := fun s =>
  (.ok s.next, { s.put s.next ⟨none, none, none, flags, true, 0, false, none, none, none⟩ with next := s.next + 1 })

/-- `Free` -/
def free (i : Nat) : RtM A F T Unit := load i >>= fun _ => modify fun s => { s with mem := Function.update s.mem i none }

/-! ## References -/

section Functions
variable (rx : Radix A T)

def rtfree (i : Nat) : RtM A F T Unit := do
  addRef i (-1)
  let e ← load i
  if e.rt_refcnt ≤ 0 ∧ e.up = false then do
    let s ← Cmd.get
    if i ∈ rx.ids s.tree then fail .panic
    else do
      modify fun s => { s with rttrash := s.rttrash - 1 }
      if e.rt_refcnt < 0 then pure ()
      else do
        IFAFREE e.rt_ifa
        free i
  else pure ()

def RTFREE (i : Nat) : RtM A F T Unit :=
  load i >>= fun e => if e.rt_refcnt ≤ 1 then rtfree rx i else addRef i (-1)

/-- `rtfree`, if there is an entry. -/
def rtfreeSome : Option Nat → RtM A F T Unit
  | none => pure ()
  | some i => rtfree rx i

/-! ## Requests -/

variable (ad : Addrs A) (malloc : Nat → Bool) (ifs : Ifs A F)

def ROUNDUP (a : Nat) : Nat := if a > 0 then 1 + ((a - 1) ||| 3) else 4

/-- What calls `rtalloc1` has it as a parameter, as they call each other. -/
abbrev Rtalloc1 (A F T : Type) : Type := A → Bool → RtM A F T (Option Nat)

/-- Whether the gateway fits where the old one is. -/
def gateFits (e : Rtentry A F) (gate : A) : Bool :=
  match e.rt_gateway with
  | none => false
  | some g => ROUNDUP (ad.sa_len gate) ≤ ROUNDUP (ad.sa_len g)

/-- The memory for the gateway. -/
def gateRoom (e : Rtentry A F) (gate : A) : RtM A F T Bool := if gateFits ad e gate then pure true else rMalloc malloc

/-- The pointer to the route to the gateway, released. -/
def dropGate (i : Nat) : RtM A F T Unit :=
  load i >>= fun e =>
    match e.rt_gwroute with
    | none => pure ()
    | some g => RTFREE rx g >>= fun _ => store i fun e => { e with rt_gwroute := none }

/-- `rt_setgate`; it returns whether it failed. -/
def rtSetgate (rtalloc1 : Rtalloc1 A F T) (i : Nat) (gate : A) : RtM A F T Bool := do
  let e ← load i
  let room ← gateRoom ad malloc e gate
  if room = false then pure true
  else do
    store i fun e => { e with rt_gateway := some gate }
    dropGate rx i
    let e ← load i
    if e.rt_flags.gateway then do
      let gw ← rtalloc1 gate true
      store i fun e => { e with rt_gwroute := gw }
      pure false
    else pure false

/-- The end of `ifa_ifwithroute`: an address of the same family where there is one. -/
def sameFamily (dst : A) (ifa : F) : F := if ifs.sameFamily ifa dst then ifa else (ifs.ifaof dst ifa).getD ifa

def ifaIfwithroute (rtalloc1 : Rtalloc1 A F T) (flags : Flags) (dst gateway : A) : RtM A F T (Option F) :=
  let ifa :=
    if flags.gateway = false then (if flags.host then ifs.ifwithdstaddr dst else none) <|> ifs.ifwithaddr gateway
    else ifs.ifwithdstaddr gateway
  match ifa <|> ifs.ifwithnet gateway with
  | some ifa => pure (some (sameFamily ifs dst ifa))
  | none => do
    let rt ← rtalloc1 dst false
    match rt with
    | none => pure none
    | some rt => do
      addRef rt (-1)
      let e ← load rt
      pure (e.rt_ifa.map (sameFamily ifs dst))

/-- The end of an entry that is in the tree already. -/
def dropMade (rt : Nat) : RtM A F T (Except Errno Nat) := do
  let e ← load rt
  rtfreeSome rx e.rt_gwroute
  free rt
  pure (.error .EEXIST)

/-- The rest of an entry that was put into the tree. -/
def install (ifa : Option F) (rt : Nat) (netmask : Option A) (ret_nrt : Bool) : RtM A F T (Except Errno Nat) :=
  match ifa with
  | none => fail .fault
  | some ifa => do
    ifaHold ifa
    store rt fun e => { e with rt_mask := netmask, rt_ifa := some ifa, rt_ifp := ifs.ifa_ifp ifa }
    if ret_nrt then do
      addRef rt 1
      pure (.ok rt)
    else pure (.ok rt)

/-- The entry made by `rtrequest`, with a reference where `ret_nrt` is not null. -/
def makeroute (rtalloc1 : Rtalloc1 A F T) (ifa : Option F) (flags : Flags) (dst gateway : A) (netmask : Option A) (ret_nrt : Bool) :
    RtM A F T (Except Errno Nat) := do
  let room ← rMalloc malloc
  if room = false then pure (.error .ENOBUFS)
  else do
    let rt ← alloc flags
    let failed ← rtSetgate rx ad malloc rtalloc1 rt gateway
    if failed then do
      free rt
      pure (.error .ENOBUFS)
    else do
      let ndst := (netmask.map (ad.masked dst)).getD dst
      store rt fun e => { e with rt_key := some ndst }
      let s ← Cmd.get
      match rx.addaddr s.tree ndst netmask rt with
      | none => dropMade rx rt
      | some tree => do
        modify fun s => { s with tree := tree }
        install ifs ifa rt netmask ret_nrt

/-- `rtrequest` with `RTM_DELETE`. -/
def rtdelete (dst : A) (netmask : Option A) (ret_nrt : Bool) : RtM A F T (Except Errno Nat) := do
  let s ← Cmd.get
  match rx.deladdr s.tree dst netmask with
  | none => pure (.error .ESRCH)
  | some (rt, tree) => do
    modify fun s => { s with tree := tree }
    store rt fun e => { e with up := false }
    dropGate rx rt
    let e ← load rt
    modify fun s => { s with rttrash := s.rttrash + 1 }
    if ret_nrt then pure (.ok rt)
    else if e.rt_refcnt ≤ 0 then do
      addRef rt 1
      rtfree rx rt
      pure (.ok rt)
    else pure (.ok rt)

/-- The metrics of the new entry are those of the one it is made from. -/
def copyMetrics (rt : Nat) : Except Errno Nat → RtM A F T (Except Errno Nat)
  | .error e => pure (.error e)
  | .ok newrt => do
    let _ ← load rt
    let _ ← load newrt
    pure (.ok newrt)

/-- `rtrequest`. `ret_nrt` is `none` for a null pointer, else what it points to; what it points to afterwards is the result. -/
def rtrequest (rtalloc1 : Rtalloc1 A F T) (req : Req) (dst gateway : A) (netmask : Option A) (flags : Flags)
    (ret_nrt : Option (Option Nat)) : RtM A F T (Except Errno Nat) :=
  if ad.table dst = false then pure (.error .ESRCH)
  else
    let netmask := if flags.host then none else netmask
    match req with
    | .delete => rtdelete rx dst netmask ret_nrt.isSome
    | .resolve =>
      match ret_nrt.join with
      | none => pure (.error .EINVAL)
      | some rt => do
        let e ← load rt
        match e.rt_gateway with
        | none => fail .fault
        | some gateway =>
          let flags := { e.rt_flags with cloning := false, host := e.rt_flags.host || e.rt_genmask.isNone }
          makeroute rx ad malloc ifs rtalloc1 e.rt_ifa flags dst gateway e.rt_genmask true >>= copyMetrics rt
    | .add => do
      let ifa ← ifaIfwithroute ifs rtalloc1 flags dst gateway
      match ifa with
      | none => pure (.error .ENETUNREACH)
      | some ifa => makeroute rx ad malloc ifs rtalloc1 (some ifa) flags dst gateway netmask ret_nrt.isSome

/-- `rtalloc1`, as far as `fuel` recursions. -/
def rtalloc1 : Nat → Rtalloc1 A F T
  | 0 => fun _ _ => fail .diverged
  | fuel + 1 => fun dst report => do
    let s ← Cmd.get
    match (if ad.table dst then rx.matchaddr s.tree dst else none) with
    | none => pure none
    | some rt => do
      let e ← load rt
      if report && e.rt_flags.cloning then do
        let r ← rtrequest rx ad malloc ifs (rtalloc1 fuel) .resolve dst dst none ⟨false, false, false, false, false⟩ (some (some rt))
        match r with
        | .error _ => do
          addRef rt 1
          pure (some rt)
        | .ok newrt => do
          -- The flags tell whether a message is sent to resolve it.
          let _ ← load newrt
          pure (some newrt)
      else do
        addRef rt 1
        pure (some rt)

/-! ## Callers -/

/-- `rtalloc`: what `ro_rt` is replaced by, if it is. -/
def rtalloc (rtalloc1 : Rtalloc1 A F T) (ro_rt : Option Nat) (dst : A) : RtM A F T (Option (Option Nat)) :=
  match ro_rt with
  | none => rtalloc1 dst true >>= fun rt => pure (some rt)
  | some i => do
    let e ← load i
    if e.rt_ifp ∧ e.up then pure none
    else do
      let rt ← rtalloc1 dst true
      pure (some rt)

/-- The tests of `rtredirect`. -/
def redirectError (rt : Option (Rtentry A F)) (ifa : F) (gateway src : A) (flags : Flags) : Option Errno :=
  let stranger : Bool :=
    match rt with
    | none => false
    | some e => !((e.rt_gateway.map (ad.equal src)).getD false) || e.rt_ifa ≠ some ifa
  if flags.done = false ∧ stranger then some .EINVAL
  else if (ifs.ifwithaddr gateway).isSome then some .EHOSTUNREACH
  else none

/-- A host route, or one for all, is made for the redirect; else the gateway of the route is changed. -/
def redirectRoute (rtalloc1 : Rtalloc1 A F T) (rt : Option Nat) (dst gateway : A) (netmask : Option A) (flags : Flags) :
    RtM A F T (Option Errno) :=
  let create := do
    let r ← rtrequest rx ad malloc ifs rtalloc1 .add dst gateway netmask { flags with gateway := true } none
    match r with
    | .error e => pure (some e)
    | .ok _ => pure none
  match rt with
  | none => create
  | some i => do
    let e ← load i
    if (e.rt_mask.map fun m => decide (ad.sa_len m < 2)).getD false then create
    else if e.rt_flags.gateway then
      if e.rt_flags.host = false ∧ flags.host then create
      else do
        let _ ← rtSetgate rx ad malloc rtalloc1 i gateway
        pure none
    else pure (some .EHOSTUNREACH)

/-- A redirect that fails no test. -/
def redirectBody (rtalloc1 : Rtalloc1 A F T) (error : Option Errno) (rt : Option Nat) (dst gateway : A) (netmask : Option A) (flags : Flags) :
    RtM A F T (Option Errno) :=
  match error with
  | some error => pure (some error)
  | none => redirectRoute rx ad malloc ifs rtalloc1 rt dst gateway netmask flags

/-- `load`, for a pointer that may be null. -/
def loadSome : Option Nat → RtM A F T (Option (Rtentry A F))
  | none => pure none
  | some i => load i >>= fun e => pure (some e)

/-- `rtredirect`: the error, and the reference left in `*rtp` where `rtp` is not null. -/
def rtredirect (rtalloc1 : Rtalloc1 A F T) (dst gateway : A) (netmask : Option A) (flags : Flags) (src : A) (rtp : Bool) :
    RtM A F T (Option Errno × Option Nat) :=
  match ifs.ifwithnet gateway with
  | none => pure (some .ENETUNREACH, none)
  | some ifa => do
    let rt ← rtalloc1 dst false
    let e ← loadSome rt
    let error ← redirectBody rx ad malloc ifs rtalloc1 (redirectError ad ifs e ifa gateway src flags) rt dst gateway netmask flags
    match rt with
    | none => pure (error, none)
    | some rt =>
      if rtp ∧ error = none then pure (error, some rt)
      else do
        rtfree rx rt
        pure (error, none)

/-- What `rtinit` does before it deletes the route of `ifa`: the error, if the route is not its own. -/
def rtinitCheck (rtalloc1 : Rtalloc1 A F T) (ifa : F) (dst : A) (flags : Flags) : RtM A F T (Option Errno) := do
  let rt ← rtalloc1 dst false
  match rt with
  | none => pure none
  | some rt => do
    addRef rt (-1)
    let e ← load rt
    if e.rt_ifa ≠ some ifa then pure (some (if flags.host then .EHOSTUNREACH else .ENETUNREACH)) else pure none

/-- The address that a route of `ifa` is deleted under. -/
def deldst (ifa : F) (flags : Flags) : A :=
  if flags.host then ifs.ifa_dstaddr ifa
  else
    match ifs.ifa_netmask ifa with
    | none => ifs.ifa_addr ifa
    | some m => ad.masked (ifs.ifa_addr ifa) m

/-- `rtinit` with `RTM_DELETE`. -/
def rtinitDelete (rtalloc1 : Rtalloc1 A F T) (ifa : F) (flags : Flags) : RtM A F T (Option Errno) := do
  let dst := deldst ad ifs ifa flags
  let error ← rtinitCheck rtalloc1 ifa dst flags
  match error with
  | some error => pure (some error)
  | none => do
    let r ← rtrequest rx ad malloc ifs rtalloc1 .delete dst (ifs.ifa_addr ifa) (ifs.ifa_netmask ifa) (flags.or (ifs.ifa_flags ifa)) (some none)
    match r with
    | .error error => pure (some error)
    | .ok rt => do
      let e ← load rt
      if e.rt_refcnt ≤ 0 then do
        addRef rt 1
        rtfree rx rt
        pure none
      else pure none

/-- `rtinit` with `RTM_ADD`. -/
def rtinitAdd (rtalloc1 : Rtalloc1 A F T) (ifa : F) (flags : Flags) : RtM A F T (Option Errno) := do
  let dst := if flags.host then ifs.ifa_dstaddr ifa else ifs.ifa_addr ifa
  let r ← rtrequest rx ad malloc ifs rtalloc1 .add dst (ifs.ifa_addr ifa) (ifs.ifa_netmask ifa) (flags.or (ifs.ifa_flags ifa)) (some none)
  match r with
  | .error error => pure (some error)
  | .ok rt => do
    addRef rt (-1)
    let e ← load rt
    if e.rt_ifa ≠ some ifa then do
      IFAFREE e.rt_ifa
      store rt fun e => { e with rt_ifa := some ifa, rt_ifp := ifs.ifa_ifp ifa }
      ifaHold ifa
      let _ ← load rt
      pure none
    else pure none

end Functions

end BsdKernel.Route
