import BsdKernel.Ufs.LockfRanges
import BsdKernel.Lib.Trace
/-!
# Runs of byte-range locking

The granted calls on one inode, beside the map that is overwritten in turn by each
of them: `lockf_runs`.
-/

namespace BsdKernel.Advlock

open BsdKernel.Lib

/-- A granted `lf_setlock`, or an `lf_clearlock`, and what `MALLOC` returns in it. -/
inductive Call
  | set (lock : Lockf) (fresh : Nat)
  | clear (unlock : Lockf) (fresh : Nat)
  deriving DecidableEq, Repr

/-- The locks of the inode, and the map that the calls so far describe. -/
structure Run where
  list : List Lockf
  map : Nat → Int → Option Typ

def callStep : Option Run → Call → Option Run
  | none, _ => none
  | some r, .set lock fresh =>
    (setlock lock fresh r.list).map fun (l, _) => ⟨l, overwrite lock (some lock.type) r.map⟩
  | some r, .clear unlock fresh =>
    (clearlock unlock fresh r.list).map fun (l, _) => ⟨l, overwrite unlock none r.map⟩

/-- The call has a range, and is granted. -/
def Granted : Option Run → Call → Prop
  | none, _ => True
  | some r, .set lock _ => lock.Valid ∧ lock.type ≠ .UNLCK ∧ getblock lock r.list = none
  | some _, .clear unlock _ => unlock.Valid ∧ unlock.type = .UNLCK

instance : ∀ st call, Decidable (Granted st call)
  | none, _ => inferInstanceAs (Decidable True)
  | some _, .set _ _ => inferInstanceAs (Decidable (_ ∧ _))
  | some _, .clear _ _ => inferInstanceAs (Decidable (_ ∧ _))

/-- No lock is to be cut behind the largest offset. -/
def Fits : Option Run → Call → Prop
  | none, _ => True
  | some r, .set lock _ => FitsSet lock r.list
  | some r, .clear unlock _ => FitsClear unlock r.list

instance : ∀ st call, Decidable (Fits st call)
  | none, _ => inferInstanceAs (Decidable True)
  | some _, .set _ _ => inferInstanceAs (Decidable (_ → _))
  | some _, .clear _ _ => inferInstanceAs (Decidable (_ → _))

/-- No owner has locked a byte that another may write. -/
def Exclusive (m : Nat → Int → Option Typ) : Prop :=
  ∀ id id' b, id ≠ id' → m id b = some .WRLCK → m id' b = none

/-- The list implements the map, the locks of an owner are disjoint and in
increasing order, and what one owner may write no other has locked. -/
structure Locked (r : Run) : Prop where
  map : ∀ id b, held r.list id b = r.map id b
  ordered : Ordered r.list
  exclusive : Exclusive (held r.list)

/-- A lock that may block, but does not: where it meets another owner, both read. -/
theorem held_of_not_blocks {lock : Lockf} {l : List Lockf} (h : ∀ lf ∈ l, ¬Blocks lock lf) {id : Nat} {b : Int} {t : Typ}
    (hid : id ≠ lock.id) (hb : lock.covers b) (ht : held l id b = some t) : lock.type ≠ .WRLCK ∧ t ≠ .WRLCK := by
  obtain ⟨lf, hfind, rfl⟩ := Option.map_eq_some_iff.1 ht
  obtain ⟨hlfid, hcov⟩ : lf.id = id ∧ lf.covers b := by simpa using List.find?_some hfind
  have hmeet : overlapCase lf lock ≠ .no := by
    intro hno
    have hspec := overlapCase_spec lf lock
    rw [hno] at hspec
    rcases hspec with hb' | hb'
    · exact hb'.not_covers_right hcov hb
    · exact hb'.not_covers_right hb hcov
  have hn := h lf (List.mem_of_find?_eq_some hfind)
  exact ⟨fun hw => hn ⟨by rwa [hlfid], hmeet, .inl hw⟩, fun hw => hn ⟨by rwa [hlfid], hmeet, .inr hw⟩⟩

theorem overwrite_exclusive {m : Nat → Int → Option Typ} {lock : Lockf} {type : Option Typ} (h : Exclusive m)
    (hset : type ≠ none → ∀ id b t, id ≠ lock.id → lock.covers b → m id b = some t → type ≠ some .WRLCK ∧ t ≠ .WRLCK) :
    Exclusive (overwrite lock type m) := by
  intro id id' b hne hw
  simp only [overwrite] at hw ⊢
  by_cases hl : id = lock.id ∧ lock.covers b
  · rw [if_pos hl] at hw
    rw [if_neg fun hl' => hne (hl.1.trans hl'.1.symm)]
    by_contra hn
    obtain ⟨t, ht⟩ := Option.ne_none_iff_exists'.1 hn
    exact (hset (by simp [hw]) id' b t (fun he => hne (hl.1.trans he.symm)) hl.2 ht).1 hw
  · rw [if_neg hl] at hw
    by_cases hl' : id' = lock.id ∧ lock.covers b
    · rw [if_pos hl']
      by_contra hn
      exact (hset hn id b .WRLCK (fun he => hl ⟨he, hl'.2⟩) hl'.2 hw).2 rfl
    · rw [if_neg hl']
      exact h id id' b hne hw

/-- What a running system keeps. -/
structure Kept (r : Run) : Prop extends Locked r where
  valid : ∀ lf ∈ r.list, lf.Valid

theorem kept_of_holds {r : Run} {l : List Lockf} {lock : Lockf} {type : Option Typ} (h : Kept r)
    (hh : Holds l (overwrite lock type (held r.list))) (he : Exclusive (overwrite lock type (held r.list))) :
    Kept ⟨l, overwrite lock type r.map⟩ := by
  have hmap : held r.list = r.map := funext fun id => funext fun b => h.map id b
  have hl : held l = overwrite lock type (held r.list) := funext fun id => funext fun b => hh.map id b
  exact ⟨⟨fun id b => by rw [hl, hmap], hh.ordered, by rw [hl]; exact he⟩, hh.valid⟩

theorem callStep_kept {r : Run} (h : Kept r) (call : Call) (hg : Granted (some r) call) (hf : Fits (some r) call) :
    ∃ r', callStep (some r) call = some r' ∧ Kept r' := by
  cases call with
  | set lock fresh =>
    obtain ⟨hvalid, -, hfree⟩ := hg
    obtain ⟨l, woken, he, hh⟩ := setlock_spec fresh hvalid h.valid h.ordered hf
    refine ⟨⟨l, overwrite lock (some lock.type) r.map⟩, by simp only [callStep, he, Option.map_some],
      kept_of_holds h hh (overwrite_exclusive h.exclusive fun _ id b t hid hb ht => ?_)⟩
    have hread := held_of_not_blocks (getblock_none hfree) hid hb ht
    exact ⟨fun hw => hread.1 (Option.some.inj hw), hread.2⟩
  | clear unlock fresh =>
    obtain ⟨hvalid, htype⟩ := hg
    obtain ⟨l, woken, he, hh⟩ := clearlock_spec fresh htype hvalid h.valid h.ordered hf
    exact ⟨⟨l, overwrite unlock none r.map⟩, by simp only [callStep, he, Option.map_some],
      kept_of_holds h hh (overwrite_exclusive h.exclusive fun hn => absurd rfl hn)⟩

/-- An inode without locks. -/
def Run.init : Run := ⟨[], fun _ _ => none⟩

/-- In every run of granted calls that fit, the lock list is byte-range locking. -/
theorem lockf_runs (calls : List Call) (hg : Along callStep Granted (some .init) calls)
    (hf : Along callStep Fits (some .init) calls) :
    ∀ st ∈ states callStep (some .init) calls, ∃ r, st = some r ∧ Locked r := by
  have hinit : ∃ r, some Run.init = some r ∧ Kept r := ⟨.init, rfl, ⟨fun _ _ => rfl, .nil, fun _ _ _ _ _ => rfl⟩, nofun⟩
  have hrun : ∀ st ∈ states callStep (some .init) calls, ∃ r, st = some r ∧ Kept r := by
    refine states_of_along ?_ hinit ((along_and callStep Granted Fits _ calls).2 ⟨hg, hf⟩)
    rintro st call ⟨r, rfl, hr⟩ ⟨hg, hf⟩
    exact callStep_kept hr call hg hf
  intro st hst
  obtain ⟨r, he, hr⟩ := hrun st hst
  exact ⟨r, he, hr.toLocked⟩

/-- A request of a process on a range. -/
def posixLock (addr id : Nat) (type : Typ) (start last : Int) : Lockf := ⟨addr, true, false, true, type, start, last, id, []⟩

/-- Two owners, with a lock that is split, one that is downgraded at its end, and
a range that is cleared over several locks. -/
def sampleCalls : List Call :=
  [.set (posixLock 1 7 .WRLCK 0 99) 0, .set (posixLock 2 8 .RDLCK 200 (-1)) 0, .set (posixLock 3 7 .RDLCK 20 29) 4,
    .set (posixLock 5 7 .RDLCK 90 250) 0, .clear (posixLock 6 7 .UNLCK 10 95) 0]

theorem lockf_runs_sample :
    (Along callStep Granted (some .init) sampleCalls ∧ Along callStep Fits (some .init) sampleCalls) ∧
      ∀ st ∈ states callStep (some .init) sampleCalls, ∃ r, st = some r ∧ Locked r :=
  have hg : Along callStep Granted (some .init) sampleCalls := by decide +kernel
  have hf : Along callStep Fits (some .init) sampleCalls := by decide +kernel
  ⟨⟨hg, hf⟩, lockf_runs sampleCalls hg hf⟩

/-- A lock on the whole file, and a read lock on all of it but the first byte up
to the largest offset. -/
def wrapCalls : List Call := [.set (posixLock 1 7 .WRLCK 0 (-1)) 0, .set (posixLock 2 7 .RDLCK 1 OFF_MAX) 3]

/-- The part of the first lock behind the second starts before it. -/
theorem lockf_wraps :
    Along callStep Granted (some .init) wrapCalls ∧
      (final callStep (some .init) wrapCalls).map (·.list) =
        some [posixLock 1 7 .WRLCK 0 0, posixLock 2 7 .RDLCK 1 OFF_MAX, posixLock 3 7 .WRLCK (-2 ^ 63) (-1)] ∧
      ¬∀ st ∈ states callStep (some .init) wrapCalls, ∃ r, st = some r ∧ Locked r := by
  have hfinal : (final callStep (some .init) wrapCalls).map (·.list) =
      some [posixLock 1 7 .WRLCK 0 0, posixLock 2 7 .RDLCK 1 OFF_MAX, posixLock 3 7 .WRLCK (-2 ^ 63) (-1)] := by
    decide +kernel
  refine ⟨by decide +kernel, hfinal, fun h => ?_⟩
  obtain ⟨r, he, hr⟩ := h _ (final_mem_states callStep (some .init) wrapCalls)
  rw [he] at hfinal
  have hord := hr.ordered
  rw [show r.list = _ from Option.some.inj hfinal] at hord
  exact absurd hord (by decide +kernel)

/-! ## What is in the way -/

inductive Whence
  | SEEK_SET | SEEK_CUR | SEEK_END

/-- `struct flock`. -/
structure Flock where
  l_type : Typ
  l_whence : Whence
  l_start : Int
  l_len : Int
  l_pid : Int

/-- The `end` that `ufs_advlock` makes of a range from the start of the file. -/
def Flock.last (fl : Flock) : Int := if fl.l_len = 0 then -1 else offT (fl.l_start + fl.l_len - 1)

/-- `lf_getlock`, where `p_pid` is that of the process which is the owner. -/
def lfGetlock (p_pid : Nat → Int) (lock : Lockf) (l : List Lockf) (fl : Flock) : Flock :=
  match getblock lock l with
  | some block =>
    ⟨block.type, .SEEK_SET, block.start, if block.last = -1 then 0 else offT (block.last - block.start + 1),
      if block.posix then p_pid block.id else -1⟩
  | none => { fl with l_type := .UNLCK }

theorem held_of_mem {l : List Lockf} (ho : Ordered l) {lf : Lockf} (h : lf ∈ l) {b : Int} (hb : lf.covers b) :
    held l lf.id b = some lf.type := by
  obtain ⟨l₁, l₂, rfl⟩ := List.append_of_mem h
  have hfront : held l₁ lf.id b = none := held_eq_none fun x hx hid hc =>
    ((List.pairwise_append.1 ho).2.2 x hx lf List.mem_cons_self hid).not_covers_right hc hb
  rw [held_append, hfront, Option.none_or, held_cons, if_pos ⟨rfl, hb⟩]

theorem exists_covers {lf lock : Lockf} (hv : lf.Valid) (hlock : lock.Valid) (hc : overlapCase lf lock ≠ .no) :
    ∃ b, lf.covers b ∧ lock.covers b := by
  have hspec := overlapCase_spec lf lock
  refine ⟨max lf.start lock.start, ?_⟩
  unfold Lockf.Valid Lockf.covers at *
  cases h : overlapCase lf lock with
  | no => exact absurd h hc
  | _ =>
    rw [h] at hspec
    simp only at hspec
    omega

/-- The range that is reported is read back as the range of the lock, also where its length wraps. -/
theorem last_of_len {lf : Lockf} (hv : lf.Valid) (hl : lf.last ≠ -1) : offT (lf.last - lf.start + 1) ≠ 0 ∧
    offT (lf.start + offT (lf.last - lf.start + 1) - 1) = lf.last := by
  unfold Lockf.Valid at hv
  by_cases hmax : lf.last - lf.start + 1 ≤ OFF_MAX
  · rw [offT_eq (x := lf.last - lf.start + 1) (by omega) hmax, offT_eq (by omega) (by omega)]
    omega
  · have h0 : lf.start = 0 ∧ lf.last = OFF_MAX := by omega
    rw [h0.1, h0.2]
    decide

/-- In every state of a run of granted calls that fit, `lf_getlock` says that nothing is locked exactly if no byte of
the range is locked by another owner in a way that excludes the request. Otherwise it reports such a lock, with the
range that a request needs to name it. -/
theorem getlock_runs (calls : List Call) (hg : Along callStep Granted (some .init) calls)
    (hf : Along callStep Fits (some .init) calls) (p_pid : Nat → Int) {lock : Lockf} (hlock : lock.Valid) (fl : Flock) :
    ∀ st ∈ states callStep (some .init) calls, ∃ r, st = some r ∧
      ((∀ id b t, id ≠ lock.id → lock.covers b → r.map id b = some t → lock.type ≠ .WRLCK ∧ t ≠ .WRLCK) ∧
          lfGetlock p_pid lock r.list fl = { fl with l_type := .UNLCK } ∨
        ∃ (b : Int) (block : Lockf), block.id ≠ lock.id ∧ (lock.type = .WRLCK ∨ block.type = .WRLCK) ∧ block.covers b ∧ lock.covers b ∧
          r.map block.id b = some block.type ∧ ∃ len, lfGetlock p_pid lock r.list fl =
            ⟨block.type, .SEEK_SET, block.start, len, if block.posix then p_pid block.id else -1⟩ ∧
            (lfGetlock p_pid lock r.list fl).last = block.last) := by
  have hrun : ∀ st ∈ states callStep (some .init) calls, ∃ r, st = some r ∧ Kept r := by
    refine states_of_along ?_ ⟨.init, rfl, ⟨fun _ _ => rfl, .nil, fun _ _ _ _ _ => rfl⟩, by simp [Run.init]⟩
      ((along_and callStep Granted Fits _ calls).2 ⟨hg, hf⟩)
    rintro st call ⟨r, rfl, hr⟩ ⟨hg, hf⟩
    exact callStep_kept hr call hg hf
  intro st hst
  obtain ⟨r, he, hr⟩ := hrun st hst
  refine ⟨r, he, ?_⟩
  unfold lfGetlock
  cases hb : getblock lock r.list with
  | none =>
    refine .inl ⟨fun id b t hid hcov ht => ?_, rfl⟩
    rw [← hr.map] at ht
    exact held_of_not_blocks (getblock_none hb) hid hcov ht
  | some block =>
    obtain ⟨hmem, hid, hmeet, hw⟩ := getblock_some hb
    have hv := hr.valid block hmem
    obtain ⟨b, hblock, hcov⟩ := exists_covers hv hlock hmeet
    refine .inr ⟨b, block, hid, hw, hblock, hcov, by rw [← hr.map]; exact held_of_mem hr.ordered hmem hblock, _, rfl, ?_⟩
    unfold Flock.last
    by_cases hl : block.last = -1
    · simp [hl]
    · simp only [if_neg hl, if_neg (last_of_len hv hl).1]
      exact (last_of_len hv hl).2

theorem getlock_runs_sample : ∃ r, final callStep (some .init) sampleCalls = some r ∧
    ((lfGetlock (fun _ => 1) (posixLock 9 9 .RDLCK 0 (-1)) r.list ⟨.RDLCK, .SEEK_SET, 0, 0, 0⟩).l_type = .UNLCK ∨
      ∃ id b, r.map id b ≠ none) := by
  have hlock : (posixLock 9 9 .RDLCK 0 (-1)).Valid := by decide
  obtain ⟨r, he, h⟩ := getlock_runs sampleCalls (by decide +kernel) (by decide +kernel) (fun _ => 1) hlock
    ⟨.RDLCK, .SEEK_SET, 0, 0, 0⟩ _ (final_mem_states _ _ _)
  exact ⟨r, he, h.imp (fun h => by rw [h.2]) fun ⟨b, block, _, _, _, _, hm, _⟩ => ⟨block.id, b, by simp [hm]⟩⟩

end BsdKernel.Advlock
