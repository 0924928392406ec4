import BsdKernel.Lib.Trace
import Mathlib.Tactic
/-!
# The lock manager

`lockmgr` of `kern/kern_lock.c`. A call runs to its return or to a sleep in one
step, and a process that sleeps goes on in a later one: `Point` is where. The
state has the lock and the processes that sleep on it; `shared` and `excl` are
the holds that processes were granted and have not given back, one entry each.

The share count and the state bits are in `lk_interlock.lock_data`, the word
that `simple_lock` and `simple_unlock` write. `Interlock` is what these two do
to it: on a single processor they are not the no-ops that their comment says,
they store 1 and 0 (`uniprocessor`). So no request leaves anything in the word,
and the only runs that keep to the rules of a lock are those in which one process
uses it at a time, and only exclusively: `lockmgr_runs`.

`DIAGNOSTIC`, `DEBUG` and the spinning of several processors are not compiled in.
A `panic` is `none`.
-/

namespace BsdKernel.Lockmgr

open BsdKernel.Lib

variable {s s' : State} {error : Option Errno} {r : Result} {flags : BitVec 16} {n p pid : Nat} {ext : Word}

abbrev Word := BitVec 32

def LK_NSHARE_MASK : Word := 0x000000ff

def LK_WANT_UPGRADE : Word := 0x00000100

def LK_WANT_EXCL : Word := 0x00000200

def LK_HAVE_EXCL : Word := 0x00000400

def LK_SHARE_NONZERO : Word := 0x00000800

def LK_WAITDRAIN : Word := 0x00001000

def LK_DRAINING : Word := 0xdead0000

def LK_EXTFLG_MASK : Word := 0x0000fff0

def LK_NOWAIT : Word := 0x00000010

def LK_SLEEPFAIL : Word := 0x00000020

def LK_CANRECURSE : Word := 0x00000040

/-- Some bit of `m` is set. -/
def Word.has (w m : Word) : Bool := w &&& m != 0

/-- What `simple_lock` and `simple_unlock` leave in `lock_data`. -/
structure Interlock where
  lock : Word → Word
  unlock : Word → Word

/-- `simple_lock` and `simple_unlock` of `machine/param.h` with one processor. -/
def uniprocessor : Interlock := ⟨fun _ => 1, fun _ => 0⟩

structure Lock where
  /-- `lk_interlock.lock_data`. -/
  data : Word
  /-- `lk_flags`, a `u_short`. -/
  flags : BitVec 16
  waitcount : BitVec 16
  exclusivecount : Nat
  /-- `none` is `LK_NOPROC`. -/
  lockholder : Option Nat
  deriving DecidableEq, Repr

inductive Req
  | shared | exclusive | upgrade | exclupgrade | downgrade | release | drain
  deriving DecidableEq, Repr

inductive Errno
  | EBUSY | ENOLCK
  /-- What `tsleep` returns. -/
  | sleep
  deriving DecidableEq, Repr

/-- The `ACQUIRE`s and the loop of `LK_DRAIN`. -/
inductive Point
  | shared | upgrade | excl | shares | drain
  deriving DecidableEq, Repr

structure Sleeper where
  pid : Nat
  point : Point
  ext : Word
  /-- There was a `wakeup` on what it sleeps on. -/
  woken : Bool
  deriving DecidableEq, Repr

structure State where
  lk : Lock
  asleep : List Sleeper
  shared : List Nat
  excl : List Nat
  deriving DecidableEq, Repr

inductive Result
  | slept
  | returned (error : Option Errno)
  deriving DecidableEq, Repr

section Code
variable (il : Interlock) (s : State) (pid : Nat) (ext : Word)

def State.setData (f : Word → Word) : State := { s with lk := { s.lk with data := f s.lk.data } }

/-- `wakeup` of the processes in the loop of `LK_DRAIN`, or of the others. -/
def wakeup (draining : Bool) : State :=
  { s with asleep := s.asleep.map fun t => if (t.point == .drain) = draining then { t with woken := true } else t }

/-- `if (lkp->lk_waitcount) wakeup((void *)lkp)`. -/
def wakeupWaiters : State := if s.lk.waitcount != 0 then wakeup s false else s

/-- Nobody holds or wants the lock. -/
def Lock.idle (lk : Lock) : Bool :=
  !Word.has lk.data (LK_HAVE_EXCL ||| LK_WANT_EXCL ||| LK_WANT_UPGRADE) && !Word.has lk.data LK_SHARE_NONZERO &&
    lk.waitcount == 0

/-- The end of `lockmgr`. -/
def finish (error : Option Errno) : Option (State × Result) :=
  let s :=
    if Word.has (s.lk.flags.setWidth 32) LK_WAITDRAIN && s.lk.idle then
      wakeup { s with lk := { s.lk with flags := s.lk.flags &&& ~~~(LK_WAITDRAIN.setWidth 16) } } true
    else s
  some (s.setData il.unlock, .returned error)

/-- The `wanted` of an `ACQUIRE`: the call has to sleep. -/
def Point.wanted (data : Word) : Point → Bool
  | .shared => Word.has data (LK_HAVE_EXCL ||| LK_WANT_EXCL ||| LK_WANT_UPGRADE)
  | .upgrade => Word.has data LK_NSHARE_MASK
  | .excl => Word.has data (LK_HAVE_EXCL ||| LK_WANT_EXCL)
  | .shares => Word.has data LK_SHARE_NONZERO || Word.has data LK_WANT_UPGRADE
  | .drain => Word.has data (LK_HAVE_EXCL ||| LK_WANT_EXCL ||| LK_WANT_UPGRADE) || Word.has data LK_SHARE_NONZERO

/-- `lk_waitcount++`, `simple_unlock` and `tsleep`. -/
def sleepAt (point : Point) : Option (State × Result) :=
  some
    ({ s with
        lk := { s.lk with data := il.unlock s.lk.data, waitcount := s.lk.waitcount + 1 }
        asleep := s.asleep ++ [⟨pid, point, ext, false⟩] }, .slept)

/-- `lk_sharecount` up by `n`, with `n` new holds. -/
def share (n : Nat) : State :=
  { s.setData (· + BitVec.ofNat 32 n) with shared := s.shared ++ List.replicate n pid }

/-- A share is given back, and the summary bit with the last one. -/
def unshare : State :=
  let s := { s.setData (· - 1) with shared := s.shared.erase pid }
  if Word.has s.lk.data LK_NSHARE_MASK then s else s.setData (· &&& ~~~LK_SHARE_NONZERO)

/-- The lock is taken exclusively, unless it already is. -/
def takeExcl : Option (State × Result) :=
  if s.lk.exclusivecount ≠ 0 then none
  else
    finish il
      { s with
        lk := { s.lk with data := s.lk.data ||| LK_HAVE_EXCL, lockholder := some pid, exclusivecount := 1 }
        excl := s.excl ++ [pid] } none

/-- Behind an `ACQUIRE` of one kind. -/
def afterShared : Option (State × Result) := finish il ((share s pid 1).setData (· ||| LK_SHARE_NONZERO)) none

def afterUpgrade : Option Errno → Option (State × Result)
  | some e => finish il (s.setData (· &&& ~~~LK_WANT_UPGRADE)) (some e)
  | none => takeExcl il (s.setData (· &&& ~~~LK_WANT_UPGRADE)) pid

def afterShares : Option Errno → Option (State × Result)
  | some e => finish il (s.setData (· &&& ~~~LK_WANT_EXCL)) (some e)
  | none => takeExcl il (s.setData (· &&& ~~~LK_WANT_EXCL)) pid

def afterExcl : Option (State × Result) :=
  let s := s.setData (· ||| LK_WANT_EXCL)
  if Point.wanted s.lk.data .shares then sleepAt il s pid ext .shares else afterShares il s pid none

/-- The loop of `LK_DRAIN`, and what follows it. The flags go to `lk_flags`, 16
bits wide. -/
def drainLoop : Option (State × Result) :=
  if Point.wanted s.lk.data .drain || s.lk.waitcount != 0 then
    some
      ({ s with
          lk := { s.lk with data := il.unlock s.lk.data, flags := s.lk.flags ||| LK_WAITDRAIN.setWidth 16 }
          asleep := s.asleep ++ [⟨pid, .drain, ext, false⟩] }, .slept)
  else
    finish il
      { s with
        lk :=
          { s.lk with
            flags := s.lk.flags ||| (LK_DRAINING ||| LK_HAVE_EXCL).setWidth 16
            lockholder := some pid
            exclusivecount := 1 }
        excl := s.excl ++ [pid] } none

/-- Behind the `ACQUIRE` at a point, with its error. -/
def after : Point → Option Errno → Option (State × Result)
  | .shared, some e => finish il s (some e)
  | .shared, none => afterShared il s pid
  | .upgrade, e => afterUpgrade il s pid e
  | .excl, some e => finish il s (some e)
  | .excl, none => afterExcl il s pid ext
  | .shares, e => afterShares il s pid e
  | .drain, _ => drainLoop il s pid ext

/-- `ACQUIRE`. -/
def acquire (point : Point) : Option (State × Result) :=
  if point.wanted s.lk.data then sleepAt il s pid ext point else after il s pid ext point none

/-- `case LK_EXCLUSIVE`. -/
def exclusive : Option (State × Result) :=
  if s.lk.lockholder = some pid then
    if Word.has ext LK_CANRECURSE then
      finish il { s with lk := { s.lk with exclusivecount := s.lk.exclusivecount + 1 }, excl := s.excl ++ [pid] } none
    else none
  else if Word.has ext LK_NOWAIT && (Point.wanted s.lk.data .shared || Word.has s.lk.data LK_SHARE_NONZERO) then
    finish il s (some .EBUSY)
  else acquire il s pid ext .excl

/-- `case LK_UPGRADE`. -/
def upgrade : Option (State × Result) :=
  if s.lk.lockholder = some pid ∨ Word.has s.lk.data LK_NSHARE_MASK = false then none
  else
    let s := unshare s pid
    if Word.has ext LK_NOWAIT && (Word.has s.lk.data LK_WANT_UPGRADE || decide (s.lk.data &&& LK_NSHARE_MASK > 1)) then
      finish il s (some .EBUSY)
    else if Word.has s.lk.data LK_WANT_UPGRADE then
      let s := if Word.has s.lk.data LK_NSHARE_MASK then s else wakeupWaiters s
      exclusive il s pid ext
    else acquire il (s.setData (· ||| LK_WANT_UPGRADE)) pid ext .upgrade

/-- `case LK_DOWNGRADE`: the exclusive holds become shared ones. -/
def downgrade : Option (State × Result) :=
  if s.lk.lockholder ≠ some pid ∨ s.lk.exclusivecount = 0 then none
  else
    let s := share s pid s.lk.exclusivecount
    let s :=
      { s with
        lk := { s.lk with exclusivecount := 0, data := s.lk.data &&& ~~~LK_HAVE_EXCL, lockholder := none }
        excl := s.excl.filter (· ≠ pid) }
    finish il (wakeupWaiters s) none

/-- `case LK_SHARED`, which falls into a downgrade for the exclusive holder. -/
def sharedReq : Option (State × Result) :=
  if s.lk.lockholder ≠ some pid then
    if Word.has ext LK_NOWAIT && Point.wanted s.lk.data .shared then finish il s (some .EBUSY)
    else acquire il s pid ext .shared
  else downgrade il ((share s pid 1).setData (· ||| LK_SHARE_NONZERO)) pid

/-- `case LK_RELEASE`. -/
def release : Option (State × Result) :=
  if s.lk.exclusivecount ≠ 0 then
    if s.lk.lockholder ≠ some pid then none
    else
      let s := { s with lk := { s.lk with exclusivecount := s.lk.exclusivecount - 1 }, excl := s.excl.erase pid }
      let s :=
        if s.lk.exclusivecount = 0 then
          { s with lk := { s.lk with data := s.lk.data &&& ~~~LK_HAVE_EXCL, lockholder := none } }
        else s
      finish il (wakeupWaiters s) none
  else if Word.has s.lk.data LK_SHARE_NONZERO then finish il (wakeupWaiters (unshare s pid)) none
  else finish il (wakeupWaiters { s with shared := s.shared.erase pid }) none

/-- `case LK_DRAIN`. -/
def drain : Option (State × Result) :=
  if s.lk.lockholder = some pid then none
  else if Word.has ext LK_NOWAIT && (Point.wanted s.lk.data .drain || s.lk.waitcount != 0) then
    finish il s (some .EBUSY)
  else drainLoop il s pid ext

/-- `lockmgr`, to its return or its first sleep. -/
def lockmgr (flags : Word) (req : Req) : Option (State × Result) :=
  let s := s.setData il.lock
  let ext := (flags ||| s.lk.flags.setWidth 32) &&& LK_EXTFLG_MASK
  match req with
  | .shared => sharedReq il s pid ext
  | .downgrade => downgrade il s pid
  | .exclupgrade =>
    if Word.has s.lk.data LK_WANT_UPGRADE then finish il (unshare s pid) (some .EBUSY) else upgrade il s pid ext
  | .upgrade => upgrade il s pid ext
  | .exclusive => exclusive il s pid ext
  | .release => release il s pid
  | .drain => drain il s pid ext

/-- `tsleep` of `t` has returned, with an error if `failed`. -/
def resume (t : Sleeper) (failed : Bool) : Option (State × Result) :=
  let s := { s with asleep := s.asleep.erase t }
  let fails := if failed then some Errno.sleep else if Word.has t.ext LK_SLEEPFAIL then some Errno.ENOLCK else none
  match t.point, fails with
  | .drain, some e => some (s, .returned (some e))
  | .drain, none => drainLoop il (s.setData il.lock) t.pid t.ext
  | point, some e => after il { s.setData il.lock with lk := { (s.setData il.lock).lk with waitcount := s.lk.waitcount - 1 } } t.pid t.ext point (some e)
  | point, none => acquire il { s.setData il.lock with lk := { (s.setData il.lock).lk with waitcount := s.lk.waitcount - 1 } } t.pid t.ext point

end Code

inductive Op
  | call (pid : Nat) (flags : Word) (req : Req)
  | resume (t : Sleeper) (failed : Bool)
  deriving DecidableEq, Repr

def step (il : Interlock) : Option State → Op → Option State
  | none, _ => none
  | some s, .call pid flags req => (lockmgr il s pid flags req).map Prod.fst
  | some s, .resume t failed => (resume il s t failed).map Prod.fst

/-- `lockinit`. -/
def lockinit (flags : BitVec 16) : State := ⟨⟨0, flags &&& LK_EXTFLG_MASK.setWidth 16, 0, 0, none⟩, [], [], []⟩

/-! ## What a lock is for -/

/-- A process calls when it does not sleep, upgrades, downgrades and releases
what it holds, and goes on after a `wakeup` or an error. -/
def Legal : Option State → Op → Prop
  | none, _ => True
  | some s, .call pid _ req =>
    (∀ t ∈ s.asleep, t.pid ≠ pid) ∧
      match req with
      | .release => pid ∈ s.shared ∨ pid ∈ s.excl
      | .upgrade | .exclupgrade => pid ∈ s.shared
      | .downgrade => pid ∈ s.excl
      | _ => True
  | some s, .resume t failed => t ∈ s.asleep ∧ (failed = true ∨ t.woken = true)

instance : ∀ st op, Decidable (Legal st op)
  | none, _ => inferInstanceAs (Decidable True)
  | some s, .call pid _ req =>
    @instDecidableAnd _ _ inferInstance <|
      match req with
      | .release => inferInstanceAs (Decidable (pid ∈ s.shared ∨ pid ∈ s.excl))
      | .upgrade | .exclupgrade => inferInstanceAs (Decidable (pid ∈ s.shared))
      | .downgrade => inferInstanceAs (Decidable (pid ∈ s.excl))
      | .shared | .exclusive | .drain => inferInstanceAs (Decidable True)
  | some s, .resume t failed => inferInstanceAs (Decidable (t ∈ s.asleep ∧ (failed = true ∨ t.woken = true)))

/-- An exclusive hold is that of the only holder, the share count is the number
of shared holds, `LK_SHARE_NONZERO` says whether it is zero, and a lock that
nobody holds or waits for is idle. -/
def Sound (s : State) : Prop :=
  (∀ p ∈ s.excl, ∀ q ∈ s.shared ++ s.excl, q = p) ∧ (s.lk.data &&& LK_NSHARE_MASK).toNat = s.shared.length ∧
    (Word.has s.lk.data LK_SHARE_NONZERO = true ↔ s.lk.data &&& LK_NSHARE_MASK ≠ 0) ∧
    (s.shared = [] → s.excl = [] → s.asleep = [] → s.lk.data = 0)

instance (s : State) : Decidable (Sound s) := by unfold Sound; infer_instance

/-- A running system is sound. -/
def SoundRun (st : Option State) : Prop := ∀ s, st = some s → Sound s

/-- No shared lock is asked for, neither by a request nor by a downgrade, and
no process drains the lock that another holds. -/
def Alone : Option State → Op → Prop
  | none, _ => True
  | some s, .call pid _ req =>
    match req with
    | .shared | .downgrade => False
    | .drain => ∀ q ∈ s.excl, q = pid
    | _ => True
  | some _, .resume _ _ => True

instance : ∀ st op, Decidable (Alone st op)
  | none, _ => inferInstanceAs (Decidable True)
  | some _, .call _ _ .shared => inferInstanceAs (Decidable False)
  | some _, .call _ _ .downgrade => inferInstanceAs (Decidable False)
  | some s, .call pid _ .drain => inferInstanceAs (Decidable (∀ q ∈ s.excl, q = pid))
  | some _, .call _ _ .exclusive => inferInstanceAs (Decidable True)
  | some _, .call _ _ .upgrade => inferInstanceAs (Decidable True)
  | some _, .call _ _ .exclupgrade => inferInstanceAs (Decidable True)
  | some _, .call _ _ .release => inferInstanceAs (Decidable True)
  | some _, .resume _ _ => inferInstanceAs (Decidable True)

/-! ## One processor -/

/-- No call leaves anything in the word, sleeps, or gets a share; one process
holds the lock, if any. -/
inductive Inv : State → Prop
  | free (flags : BitVec 16) : Inv ⟨⟨0, flags, 0, 0, none⟩, [], [], []⟩
  | held (flags : BitVec 16) (n p : Nat) : Inv ⟨⟨0, flags, 0, n + 1, some p⟩, [], [], List.replicate (n + 1) p⟩

@[simp] theorem wanted_shared_one : Point.wanted 1#32 .shared = false := by decide

@[simp] theorem wanted_excl_one : Point.wanted 1#32 .excl = false := by decide

@[simp] theorem wanted_drain_one : Point.wanted 1#32 .drain = false := by decide

@[simp] theorem wanted_shares_one : Point.wanted (1#32 ||| LK_WANT_EXCL) .shares = false := by decide

@[simp] theorem has_one_share_nonzero : Word.has 1#32 LK_SHARE_NONZERO = false := by decide

theorem sound_zero (h : s.lk.data = 0) :
    Sound s ↔ (∀ p ∈ s.excl, ∀ q ∈ s.shared ++ s.excl, q = p) ∧ s.shared = [] := by
  have hcount : (s.lk.data &&& LK_NSHARE_MASK) = 0 := by rw [h]; decide
  have hsum : Word.has s.lk.data LK_SHARE_NONZERO = false := by rw [h]; decide
  constructor
  · rintro ⟨hex, hlen, -⟩
    rw [hcount] at hlen
    exact ⟨hex, List.length_eq_zero_iff.1 hlen.symm⟩
  · rintro ⟨hex, hnil⟩
    exact ⟨hex, by rw [hcount, hnil]; rfl, by simp [hsum, hcount], fun _ _ _ => h⟩

theorem Inv.sound (h : Inv s) : Sound s := by
  cases h with
  | free flags => exact (sound_zero rfl).2 ⟨by simp, rfl⟩
  | held flags n p =>
    refine (sound_zero rfl).2 ⟨fun x hx y hy => ?_, rfl⟩
    have hy : y = p := List.eq_of_mem_replicate (by simpa using hy : y ∈ List.replicate (n + 1) p)
    rw [List.eq_of_mem_replicate hx, hy]

theorem finish_uniprocessor (h : s.asleep = []) (error : Option Errno) :
    ∃ flags, finish uniprocessor s error =
      some (⟨⟨0, flags, s.lk.waitcount, s.lk.exclusivecount, s.lk.lockholder⟩, [], s.shared, s.excl⟩, .returned error) := by
  unfold finish
  split
  · exact ⟨_, by simp [wakeup, State.setData, uniprocessor, h]; rfl⟩
  · exact ⟨s.lk.flags, by simp [State.setData, uniprocessor, h]⟩

/-- The call is granted, and leaves an unsound state. -/
def Unsound (o : Option (State × Result)) : Prop := ∃ s r, o = some (s, r) ∧ ¬Sound s

theorem finish_shared (h : s.asleep = []) (hs : s.shared ≠ []) : Unsound (finish uniprocessor s error) := by
  obtain ⟨flags, he⟩ := finish_uniprocessor h error
  exact ⟨_, _, he, fun hsound => hs ((sound_zero rfl).1 hsound).2⟩

/-- The free lock and the lock that `p` holds, inside a call. -/
def freeIn (flags : BitVec 16) : State := ⟨⟨1#32, flags, 0, 0, none⟩, [], [], []⟩

def heldIn (flags : BitVec 16) (n p : Nat) : State :=
  ⟨⟨1#32, flags, 0, n + 1, some p⟩, [], [], List.replicate (n + 1) p⟩

/-- What `finish` makes of a state with no share, if its holds are those of one process. -/
theorem finish_free {w : Word} (hs : s = ⟨⟨w, flags, 0, 0, none⟩, [], [], []⟩)
    (hf : finish uniprocessor s error = some (s', r)) : Inv s' := by
  subst hs
  obtain ⟨flags', he⟩ := finish_uniprocessor (s := ⟨⟨w, flags, 0, 0, none⟩, [], [], []⟩) rfl error
  rw [he] at hf
  obtain ⟨rfl, -⟩ := Prod.mk.inj (Option.some.inj hf)
  exact .free flags'

theorem finish_held {w : Word} (hs : s = ⟨⟨w, flags, 0, n + 1, some p⟩, [], [], List.replicate (n + 1) p⟩)
    (hf : finish uniprocessor s error = some (s', r)) : Inv s' := by
  subst hs
  obtain ⟨flags', he⟩ :=
    finish_uniprocessor (s := ⟨⟨w, flags, 0, n + 1, some p⟩, [], [], List.replicate (n + 1) p⟩) rfl error
  rw [he] at hf
  obtain ⟨rfl, -⟩ := Prod.mk.inj (Option.some.inj hf)
  exact .held flags' n p

theorem exclusive_free (hs : exclusive uniprocessor (freeIn flags) pid ext = some (s', r)) : Inv s' := by
  simp [exclusive, freeIn, acquire, after, afterExcl, afterShares, takeExcl, State.setData] at hs
  exact finish_held (n := 0) rfl hs

/-- A second process panics, for the exclusive count is not zero. -/
theorem exclusive_held (hs : exclusive uniprocessor (heldIn flags n p) pid ext = some (s', r)) : Inv s' := by
  by_cases hp : p = pid
  · subst hp
    simp only [exclusive, heldIn, if_true] at hs
    split at hs
    · rw [← List.replicate_succ'] at hs
      exact finish_held (n := n + 1) rfl hs
    · cases hs
  · simp [exclusive, heldIn, acquire, after, afterExcl, afterShares, takeExcl, State.setData, hp] at hs

theorem release_held (hs : release uniprocessor (heldIn flags n p) p = some (s', r)) : Inv s' := by
  have herase : (List.replicate (n + 1) p).erase p = List.replicate n p := by simp [List.replicate_succ]
  simp only [release, heldIn, herase] at hs
  cases n with
  | zero => exact finish_free rfl (by simpa [wakeupWaiters] using hs)
  | succ n => exact finish_held (n := n) rfl (by simpa [wakeupWaiters] using hs)

theorem drain_free (hs : drain uniprocessor (freeIn flags) pid ext = some (s', r)) : Inv s' := by
  simp [drain, freeIn, drainLoop] at hs
  exact finish_held (n := 0) rfl hs

theorem sharedReq_free : Unsound (sharedReq uniprocessor (freeIn flags) pid ext) := by
  simp [sharedReq, freeIn, acquire, after, afterShared]
  exact finish_shared rfl (by simp [State.setData, share])

theorem wakeupWaiters_asleep (h : s.asleep = []) : wakeupWaiters s = s := by
  obtain ⟨lk, asleep, shared, excl⟩ := s
  subst h
  simp [wakeupWaiters, wakeup]

theorem downgrade_unsound (hasleep : s.asleep = []) (hpid : s.lk.lockholder = some pid)
    (hcount : s.lk.exclusivecount ≠ 0) : Unsound (downgrade uniprocessor s pid) := by
  unfold downgrade
  rw [if_neg (by simp [hpid, hcount])]
  simp only
  rw [wakeupWaiters_asleep (by simpa [share, State.setData] using hasleep)]
  exact finish_shared (by simpa [share, State.setData] using hasleep) (by simp [share, State.setData, hcount])

theorem sharedReq_held : Unsound (sharedReq uniprocessor (heldIn flags n p) pid ext) := by
  by_cases hp : p = pid
  · subst hp
    simp only [sharedReq, heldIn, ne_eq, not_true, if_false]
    exact downgrade_unsound rfl rfl (by simp [State.setData, share])
  · simp [sharedReq, heldIn, acquire, after, afterShared, hp]
    exact finish_shared rfl (by simp [State.setData, share])

theorem drain_held (hp : p ≠ pid) : Unsound (drain uniprocessor (heldIn flags n p) pid ext) := by
  simp only [drain, heldIn, Option.some.injEq, hp, if_false, drainLoop, wanted_drain_one, Bool.false_or, bne_self_eq_false,
    Bool.and_false, Bool.false_eq_true]
  obtain ⟨flags', he⟩ := finish_uniprocessor (s := ⟨⟨1#32, flags ||| (LK_DRAINING ||| LK_HAVE_EXCL).setWidth 16, 0, 1,
    some pid⟩, [], [], List.replicate (n + 1) p ++ [pid]⟩) rfl none
  refine ⟨_, _, he, fun hsound => hp ?_⟩
  exact ((sound_zero rfl).1 hsound).1 pid (by simp) p (by simp)

/-! ## Runs -/

/-- A running system keeps `Inv`. -/
def InvRun (st : Option State) : Prop := ∀ s, st = some s → Inv s

theorem lockmgr_inv {flags : Word} {req : Req} (h : Inv s) (hl : Legal (some s) (.call pid flags req))
    (ha : Alone (some s) (.call pid flags req)) (hs : lockmgr uniprocessor s pid flags req = some (s', r)) :
    Inv s' := by
  cases h with
  | free f =>
    cases req with
    | shared | downgrade => exact ha.elim
    | upgrade | exclupgrade => exact absurd hl.2 List.not_mem_nil
    | release => exact absurd hl.2 (by simp)
    | exclusive => exact exclusive_free hs
    | drain => exact drain_free hs
  | held f n p =>
    cases req with
    | shared | downgrade => exact ha.elim
    | upgrade | exclupgrade => exact absurd hl.2 List.not_mem_nil
    | exclusive => exact exclusive_held hs
    | release =>
      have hp : pid = p := List.eq_of_mem_replicate (hl.2.resolve_left List.not_mem_nil)
      subst hp
      exact release_held hs
    | drain =>
      have hp : p = pid := ha p (by simp)
      subst hp
      -- the holder of the lock may not drain it
      simp [lockmgr, drain, State.setData] at hs

theorem step_inv (st : Option State) (op : Op) (h : InvRun st) (hl : Legal st op) (ha : Alone st op) :
    InvRun (step uniprocessor st op) := by
  intro s' hs'
  rcases st with _ | s
  · cases hs'
  · cases op with
    | call pid flags req =>
      obtain ⟨⟨t, r⟩, ht, rfl⟩ := Option.map_eq_some_iff.1 hs'
      exact lockmgr_inv (h s rfl) hl ha ht
    | resume t failed =>
      have hnone : s.asleep = [] := by cases h s rfl <;> rfl
      exact absurd hl.1 (by simp [hnone])

theorem lockmgr_unsound {flags : Word} {req : Req} (h : Inv s) (hl : Legal (some s) (.call pid flags req))
    (ha : ¬Alone (some s) (.call pid flags req)) : Unsound (lockmgr uniprocessor s pid flags req) := by
  cases h with
  | free f =>
    cases req with
    | shared => exact sharedReq_free
    | downgrade => exact absurd hl.2 List.not_mem_nil
    | drain => exact absurd (fun q hq => absurd hq List.not_mem_nil) ha
    | upgrade | exclupgrade | release | exclusive => exact absurd trivial ha
  | held f n p =>
    cases req with
    | shared => exact sharedReq_held
    | downgrade =>
      have hp : pid = p := List.eq_of_mem_replicate hl.2
      subst hp
      exact downgrade_unsound rfl rfl (Nat.succ_ne_zero n)
    | drain =>
      refine drain_held fun hp => ha fun q hq => ?_
      rw [List.eq_of_mem_replicate hq, hp]
    | upgrade | exclupgrade | release | exclusive => exact absurd trivial ha

theorem step_unsound (st : Option State) (op : Op) (h : InvRun st) (hl : Legal st op) (ha : ¬Alone st op) :
    ¬SoundRun (step uniprocessor st op) := by
  rcases st with _ | s
  · exact absurd trivial ha
  · cases op with
    | call pid flags req =>
      obtain ⟨t, r, ht, hn⟩ := lockmgr_unsound (h s rfl) hl ha
      exact fun hsound => hn (hsound t (Option.map_eq_some_iff.2 ⟨_, ht, rfl⟩))
    | resume t failed => exact absurd trivial ha

theorem lockinit_inv (flags : BitVec 16) : InvRun (some (lockinit flags)) := by
  rintro s ⟨⟩
  exact .free _

/-- On one processor the runs of any processes that keep to the rules of a lock
are exactly those in which no process asks for a shared lock or drains the lock
of another. -/
theorem lockmgr_runs (flags : BitVec 16) (ops : List Op)
    (hlegal : Along (step uniprocessor) Legal (some (lockinit flags)) ops) :
    (∀ st ∈ states (step uniprocessor) (some (lockinit flags)) ops, SoundRun st) ↔
      Along (step uniprocessor) Alone (some (lockinit flags)) ops :=
  states_iff_along step_inv (fun _ h s hs => (h s hs).sound) step_unsound (lockinit_inv flags) hlegal

/-- A process takes the lock twice, gives it back, and another drains it. -/
def handOver : List Op :=
  [.call 1 LK_CANRECURSE .exclusive, .call 1 LK_CANRECURSE .exclusive, .call 1 0 .release, .call 1 0 .release,
    .call 2 LK_NOWAIT .drain]

theorem lockmgr_runs_hand_over :
    Along (step uniprocessor) Legal (some (lockinit 0)) handOver ∧
      ∀ st ∈ states (step uniprocessor) (some (lockinit 0)) handOver, SoundRun st :=
  have hlegal : Along (step uniprocessor) Legal (some (lockinit 0)) handOver := by decide +kernel
  ⟨hlegal, (lockmgr_runs 0 handOver hlegal).2 (by decide +kernel)⟩

/-- An exclusive lock is granted while another process reads. -/
theorem lockmgr_two_holders :
    Along (step uniprocessor) Legal (some (lockinit 0)) [.call 1 0 .shared, .call 2 0 .exclusive] ∧
      final (step uniprocessor) (some (lockinit 0)) [.call 1 0 .shared, .call 2 0 .exclusive] =
        some ⟨⟨0, 0, 0, 1, some 2⟩, [], [1], [2]⟩ ∧
      ¬∀ st ∈ states (step uniprocessor) (some (lockinit 0)) [.call 1 0 .shared, .call 2 0 .exclusive], SoundRun st := by
  refine ⟨by decide +kernel, by decide +kernel, fun h => ?_⟩
  have hsound := h (some ⟨⟨0, 0, 0, 1, some 2⟩, [], [1], [2]⟩) (by decide +kernel) _ rfl
  exact absurd hsound (by decide +kernel)

/-- Interlocks that leave the word alone do not help: a downgrade leaves
`LK_SHARE_NONZERO` clear, so that a writer comes in beside the reader, and a drain
puts `LK_HAVE_EXCL` in `lk_flags`, so that a reader comes in. -/
example :
    final (step ⟨id, id⟩) (some (lockinit 0)) [.call 1 0 .exclusive, .call 1 0 .downgrade, .call 2 0 .exclusive] =
        some ⟨⟨LK_HAVE_EXCL + 1, 0, 0, 1, some 2⟩, [], [1], [2]⟩ ∧
      final (step ⟨id, id⟩) (some (lockinit 0)) [.call 1 0 .drain, .call 2 0 .shared] =
        some ⟨⟨LK_SHARE_NONZERO + 1, LK_HAVE_EXCL.setWidth 16, 0, 1, some 1⟩, [], [2], [1]⟩ := by
  decide +kernel

end BsdKernel.Lockmgr
