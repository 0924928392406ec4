import Mathlib.Tactic
import Mathlib.Data.List.Sort
/-!
# The callout queue

`timeout`, `untimeout`, the queue update of `hardclock` and the loop of
`softclock` in `kern/kern_clock.c`. All of them run at `splhigh` or from the
clock interrupt, so a system is a sequence of these steps, where `softclock` is
taken one round of its loop at a time: the function it calls, and the clock
interrupt, run in between.

The queue stores differences, with the entries that are due in front at zero or
less. `deltas` stores a sorted list of due ticks this way, and each operation on
the queue is one on the list (`timeout_deltas`, `untimeout_deltas`,
`hardclock_deltas`). `callout_runs` says what this means for every run. A
`c_time` is an `int`, which it fits as long as `ticks` does (`callout_in_range`).
-/

namespace BsdKernel.Clock

variable {F A : Type}

/-! ## The code -/

/-- `struct callout`: `c_func`, `c_arg` and `c_time`. -/
structure Callout (F A : Type) where
  func : F
  arg : A
  time : Int
  deriving DecidableEq, Repr

/-- The queue, the number of structures on `callfree`, the clock, and the calls
that `softclock` has made with the tick of each. -/
structure State (F A : Type) where
  calltodo : List (Callout F A)
  callfree : Nat
  ticks : Int
  calls : List (F × A × Int)
  deriving DecidableEq, Repr

/-- The loop of `timeout` from `p->c_next` on, with `ticks` left. -/
def insertLoop (f : F) (a : A) (ticks : Int) : List (Callout F A) → List (Callout F A)
  | [] => [⟨f, a, ticks⟩]
  | t :: q =>
    if ticks > t.time then t :: insertLoop f a (if t.time > 0 then ticks - t.time else ticks) q
    else ⟨f, a, ticks⟩ :: { t with time := t.time - ticks } :: q

/-- `if (ticks <= 0) ticks = 1`. -/
def atLeastOne (ticks : Int) : Int := if ticks ≤ 0 then 1 else ticks

/-- `timeout`, which panics when `callfree` is empty. -/
def timeout (s : State F A) (f : F) (a : A) (ticks : Int) : Option (State F A) :=
  if s.callfree = 0 then none
  else some { s with calltodo := insertLoop f a (atLeastOne ticks) s.calltodo, callfree := s.callfree - 1 }

section Cancel
variable [DecidableEq F] [DecidableEq A]

/-- `c_func == ftn && c_arg == arg`. -/
def Callout.is (f : F) (a : A) (t : Callout F A) : Bool := t.func == f && t.arg == a

/-- `t->c_next->c_time += t->c_time`, if there is a next entry. -/
def addNext (time : Int) : List (Callout F A) → List (Callout F A)
  | [] => []
  | n :: q => { n with time := n.time + time } :: q

/-- The loop of `untimeout`. -/
def cancelLoop (f : F) (a : A) : List (Callout F A) → List (Callout F A)
  | [] => []
  | t :: q => if t.is f a then (if t.time > 0 then addNext t.time q else q) else t :: cancelLoop f a q

def untimeout (s : State F A) (f : F) (a : A) : State F A :=
  { s with
    calltodo := cancelLoop f a s.calltodo
    callfree := if s.calltodo.any (·.is f a) then s.callfree + 1 else s.callfree }

end Cancel

/-- The loop of `hardclock`, with `needsoft`. -/
def tickLoop : List (Callout F A) → List (Callout F A) × Bool
  | [] => ([], false)
  | p :: q =>
    let p := { p with time := p.time - 1 }
    if p.time > 0 then (p :: q, false)
    else if p.time = 0 then (p :: q, true)
    else (p :: (tickLoop q).1, true)

def hardclock (s : State F A) : State F A := { s with calltodo := (tickLoop s.calltodo).1, ticks := s.ticks + 1 }

/-- One round of the loop of `softclock`. -/
def softclock (s : State F A) : State F A :=
  match s.calltodo with
  | [] => s
  | c :: q =>
    if c.time ≤ 0 then
      { s with calltodo := q, callfree := s.callfree + 1, calls := s.calls ++ [(c.func, c.arg, s.ticks)] }
    else s

inductive Op (F A : Type)
  | timeout (f : F) (a : A) (ticks : Int)
  | untimeout (f : F) (a : A)
  | hardclock
  | softclock
  deriving DecidableEq, Repr

def step [DecidableEq F] [DecidableEq A] (s : State F A) : Op F A → Option (State F A)
  | .timeout f a ticks => timeout s f a ticks
  | .untimeout f a => some (untimeout s f a)
  | .hardclock => some (hardclock s)
  | .softclock => some (softclock s)

/-- A run from a queue that is empty, with `n` free structures. -/
def run [DecidableEq F] [DecidableEq A] (n : Nat) (ops : List (Op F A)) : Option (State F A) := ops.foldlM step ⟨[], n, 0, []⟩

/-! ## Due ticks -/

/-- An entry with the tick it is due at. -/
structure Due (F A : Type) where
  func : F
  arg : A
  due : Int
  deriving DecidableEq, Repr

/-- The due ticks of entries behind one that is due at `base`. -/
def duesFrom (base : Int) : List (Callout F A) → List (Due F A)
  | [] => []
  | c :: q => ⟨c.func, c.arg, base + c.time⟩ :: duesFrom (base + c.time) q

/-- The due ticks that the queue stands for: times of zero or less at its front
are relative to `now`, the others to the entry before. -/
def dues (now : Int) : List (Callout F A) → List (Due F A)
  | [] => []
  | c :: q => if c.time ≤ 0 then ⟨c.func, c.arg, now + c.time⟩ :: dues now q else duesFrom now (c :: q)

/-- The queue that stands for sorted due ticks, behind an entry due at `base`. -/
def deltas (now base : Int) : List (Due F A) → List (Callout F A)
  | [] => []
  | e :: es =>
    if e.due ≤ now then ⟨e.func, e.arg, e.due - now⟩ :: deltas now base es
    else ⟨e.func, e.arg, e.due - base⟩ :: deltas now e.due es

/-- By due tick. -/
def Due.before (e e' : Due F A) : Prop := e.due ≤ e'.due

instance (e e' : Due F A) : Decidable (Due.before e e') := inferInstanceAs (Decidable (e.due ≤ e'.due))

instance : Std.Total (Due.before : Due F A → Due F A → Prop) := ⟨fun e e' => le_total e.due e'.due⟩

instance : IsTrans (Due F A) Due.before := ⟨fun _ _ _ h h' => Int.le_trans h h'⟩

abbrev Ordered (es : List (Due F A)) : Prop := es.Pairwise Due.before

def Due.is [DecidableEq F] [DecidableEq A] (f : F) (a : A) (e : Due F A) : Bool := e.func == f && e.arg == a

section Deltas
variable {now base : Int} {es : List (Due F A)}

theorem deltas_due {e : Due F A} (h : e.due ≤ now) :
    deltas now base (e :: es) = ⟨e.func, e.arg, e.due - now⟩ :: deltas now base es := by
  rw [deltas, if_pos h]

theorem deltas_later {e : Due F A} (h : now < e.due) :
    deltas now base (e :: es) = ⟨e.func, e.arg, e.due - base⟩ :: deltas now e.due es := by
  rw [deltas, if_neg (by omega)]

theorem duesFrom_deltas (hes : ∀ e ∈ es, now < e.due) : duesFrom base (deltas now base es) = es := by
  induction es generalizing base with
  | nil => rfl
  | cons e es ih =>
    rw [deltas_later (hes e (by simp)), duesFrom, show base + (e.due - base) = e.due by omega,
      ih fun x hx => hes x (by simp [hx])]

theorem dues_deltas (hes : Ordered es) : dues now (deltas now now es) = es := by
  induction es with
  | nil => rfl
  | cons e es ih =>
    obtain ⟨hlt, hes'⟩ := List.pairwise_cons.1 hes
    by_cases he : e.due ≤ now
    · rw [deltas_due he, dues, if_pos (by simp only; omega), ih hes', show now + (e.due - now) = e.due by omega]
    · have hall : ∀ x ∈ e :: es, now < x.due := by
        intro x hx
        rcases List.mem_cons.1 hx with rfl | hx
        · omega
        · have : e.due ≤ x.due := hlt x hx
          omega
      have hd : deltas now now (e :: es) = ⟨e.func, e.arg, e.due - now⟩ :: deltas now e.due es :=
        deltas_later (hall e (by simp))
      rw [hd, dues, if_neg (by simp only; omega), ← hd, duesFrom_deltas hall]

/-- The clock does not change the differences of entries that are yet to come. -/
theorem deltas_clock {now' : Int} (hes : Ordered es) (hnow : ∀ e ∈ es, now < e.due) (h : ∀ e ∈ es, now' ≤ e.due)
    (hbase : ∀ e ∈ es, e.due ≤ now' → base = now') : deltas now base es = deltas now' base es := by
  induction es generalizing base with
  | nil => rfl
  | cons e es ih =>
    obtain ⟨hlt, hes'⟩ := List.pairwise_cons.1 hes
    have he' := h e (by simp)
    rw [deltas_later (hnow e (by simp)), deltas, ih hes' (fun x hx => hnow x (by simp [hx]))
      (fun x hx => h x (by simp [hx]))]
    · split
      · rename_i hle
        have hb := hbase e (by simp) hle
        rw [hb, show e.due = now' by omega]
      · rfl
    · intro x hx hle
      have : e.due ≤ x.due := hlt x hx
      omega

theorem hardclock_deltas (hes : Ordered es) : (tickLoop (deltas now now es)).1 = deltas (now + 1) (now + 1) es := by
  induction es with
  | nil => rfl
  | cons e es ih =>
    obtain ⟨hlt, hes'⟩ := List.pairwise_cons.1 hes
    rcases lt_trichotomy e.due (now + 1) with h | h | h
    · -- overdue: one tick more, and so for the entries behind
      rw [deltas_due (by omega), deltas_due (by omega), tickLoop]
      simp only
      rw [if_neg (by omega), if_neg (by omega), ih hes', show e.due - now - 1 = e.due - (now + 1) by omega]
    · -- due with this tick, as are the entries of difference zero behind it
      have hall : ∀ x ∈ es, now + 1 ≤ x.due := fun x hx => h ▸ hlt x hx
      rw [deltas_later (by omega), deltas_due (by omega), tickLoop]
      simp only
      rw [if_neg (by omega), if_pos (by omega), h,
        deltas_clock hes' (fun x hx => by have := hall x hx; omega) hall (fun _ _ _ => rfl)]
      simp
    · have hall : ∀ x ∈ es, now + 1 < x.due := fun x hx => lt_of_lt_of_le h (hlt x hx)
      rw [deltas_later (by omega), deltas_later h, tickLoop]
      simp only
      rw [if_pos (by omega), deltas_clock hes' (fun x hx => by have := hall x hx; omega)
        (fun x hx => le_of_lt (hall x hx)) (fun x hx hle => absurd (hall x hx) (by omega)),
        show e.due - now - 1 = e.due - (now + 1) by omega]

theorem timeout_deltas (f : F) (a : A) {due : Int} (hes : Ordered es) (hnow : now ≤ base) (hdue : base < due)
    (hbase : ∀ e ∈ es, now < e.due → base ≤ e.due) :
    insertLoop f a (due - base) (deltas now base es) = deltas now base (es.orderedInsert Due.before ⟨f, a, due⟩) := by
  have hnew : now < (⟨f, a, due⟩ : Due F A).due := by
    simp only
    omega
  induction es generalizing base with
  | nil =>
    rw [List.orderedInsert_nil, deltas_later hnew]
    rfl
  | cons e es ih =>
    obtain ⟨hlt, hes'⟩ := List.pairwise_cons.1 hes
    rw [List.orderedInsert]
    by_cases hd : due ≤ e.due
    · have he : now < e.due := by omega
      rw [if_pos (show Due.before ⟨f, a, due⟩ e from hd), deltas_later he, deltas_later hnew, deltas_later he,
        insertLoop, if_neg (by simp only; omega), show e.due - base - (due - base) = e.due - due by omega]
    · rw [if_neg (show ¬Due.before ⟨f, a, due⟩ e from hd)]
      by_cases he : e.due ≤ now
      · rw [deltas_due he, deltas_due he, insertLoop, if_pos (by simp only; omega), if_neg (by simp only; omega),
          ih hes' hnow hdue (fun x hx => hbase x (by simp [hx]))]
      · have hb := hbase e (by simp) (by omega)
        have hticks : (if e.due - base > 0 then due - base - (e.due - base) else due - base) = due - e.due := by
          split <;> omega
        rw [deltas_later (by omega), deltas_later (by omega), insertLoop, if_pos (by simp only; omega)]
        simp only
        rw [hticks, ih hes' (by omega) (by omega) (fun x hx _ => hlt x hx)]

theorem untimeout_deltas [DecidableEq F] [DecidableEq A] (f : F) (a : A) (hes : Ordered es)
    (hbase : ∀ e ∈ es, now < e.due → base ≤ e.due) :
    cancelLoop f a (deltas now base es) = deltas now base (es.eraseP (·.is f a)) := by
  induction es generalizing base with
  | nil => rfl
  | cons e es ih =>
    obtain ⟨hlt, hes'⟩ := List.pairwise_cons.1 hes
    rw [List.eraseP_cons]
    by_cases he : e.due ≤ now
    · rw [deltas_due he, cancelLoop, show Callout.is f a ⟨e.func, e.arg, e.due - now⟩ = e.is f a from rfl]
      cases e.is f a with
      | true => simp [not_lt.2 he]
      | false => simp [deltas_due he, ih hes' fun x hx => hbase x (by simp [hx])]
    · have hb := hbase e (by simp) (by omega)
      rw [deltas_later (by omega), cancelLoop,
        show Callout.is f a ⟨e.func, e.arg, e.due - base⟩ = e.is f a from rfl]
      cases e.is f a with
      | false => simp [deltas_later (show now < e.due by omega), ih hes' fun x hx _ => hlt x hx]
      | true =>
        simp only [if_true, cond_true]
        cases es with
        | nil => simp [deltas, addNext]
        | cons n es =>
          have hn : e.due ≤ n.due := hlt n (by simp)
          rw [deltas_later (by omega), deltas_later (by omega)]
          split
          · rw [addNext]
            simp only
            rw [show n.due - e.due + (e.due - base) = n.due - base by omega]
          · rw [show e.due = base by omega]

end Deltas

/-! ## The agenda -/

/-- What the queue is for: the entries by due tick, those that have run with the
tick they ran at, those cancelled, and all that were ever entered. -/
structure Agenda (F A : Type) where
  now : Int
  queue : List (Due F A)
  ran : List (Due F A × Int)
  cancelled : List (Due F A)
  entered : List (Due F A)

variable {g : Agenda F A} {s : State F A}

section Runs
variable [DecidableEq F] [DecidableEq A]

/-- An entry is due `t` ticks, at least one, from now; the first that matches is
cancelled; the first is run once it is due. -/
def Agenda.step (g : Agenda F A) : Op F A → Agenda F A
  | .timeout f a t =>
    let e : Due F A := ⟨f, a, g.now + max t 1⟩
    { g with queue := g.queue.orderedInsert Due.before e, entered := g.entered ++ [e] }
  | .untimeout f a =>
    { g with
      queue := g.queue.eraseP (·.is f a)
      cancelled := g.cancelled ++ (g.queue.find? (·.is f a)).toList }
  | .hardclock => { g with now := g.now + 1 }
  | .softclock =>
    match g.queue with
    | [] => g
    | e :: q => if e.due ≤ g.now then { g with queue := q, ran := g.ran ++ [(e, g.now)] } else g

def agenda (ops : List (Op F A)) : Agenda F A := ops.foldl Agenda.step ⟨0, [], [], [], []⟩

/-- The state keeps the agenda. -/
structure Keeps (s : State F A) (g : Agenda F A) : Prop where
  ticks : s.ticks = g.now
  calltodo : s.calltodo = deltas g.now g.now g.queue
  calls : s.calls = g.ran.map fun x => (x.1.func, x.1.arg, x.2)

/-- What holds of the agenda itself. -/
structure Agenda.Ok (g : Agenda F A) : Prop where
  ordered : Ordered g.queue
  /-- Nothing is lost: an entry is waiting, has run or was cancelled. -/
  whole : (g.queue ++ g.ran.map Prod.fst ++ g.cancelled).Perm g.entered
  /-- Nothing runs early. -/
  due : ∀ x ∈ g.ran, x.1.due ≤ x.2 ∧ x.2 ≤ g.now
  sorted : (g.ran.map (·.1.due)).Pairwise (· ≤ ·)
  /-- What has run was due before what waits. -/
  before : ∀ x ∈ g.ran, ∀ e ∈ g.queue, x.1.due ≤ e.due

omit [DecidableEq F] [DecidableEq A] in
theorem find_append_eraseP (p : Due F A → Bool) (es : List (Due F A)) :
    ((es.find? p).toList ++ es.eraseP p).Perm es := by
  induction es with
  | nil => rfl
  | cons e es ih =>
    rw [List.find?_cons, List.eraseP_cons]
    cases p e with
    | true => rfl
    | false => exact List.perm_middle.trans (ih.cons e)

theorem Agenda.Ok.step (h : g.Ok) (op : Op F A) : (g.step op).Ok := by
  cases op with
  | timeout f a t =>
    set e : Due F A := ⟨f, a, g.now + max t 1⟩ with he
    have hp := List.perm_orderedInsert Due.before e g.queue
    refine ⟨List.Pairwise.orderedInsert _ _ h.ordered, ?_, h.due, h.sorted, ?_⟩
    · calc g.queue.orderedInsert Due.before e ++ g.ran.map Prod.fst ++ g.cancelled
          |>.Perm (e :: g.queue ++ g.ran.map Prod.fst ++ g.cancelled) := (hp.append_right _).append_right _
        _ |>.Perm (e :: g.entered) := h.whole.cons e
        _ |>.Perm (g.entered ++ [e]) := (List.perm_append_singleton e _).symm
    · intro x hx y hy
      rcases List.mem_cons.1 (hp.mem_iff.1 hy) with rfl | hy
      · obtain ⟨h₁, h₂⟩ := h.due x hx
        simp only [he]
        omega
      · exact h.before x hx y hy
  | untimeout f a =>
    refine ⟨h.ordered.sublist List.eraseP_sublist, ?_, h.due, h.sorted,
      fun x hx y hy => h.before x hx y (List.eraseP_subset hy)⟩
    have hp := find_append_eraseP (fun e => e.is f a) g.queue
    refine List.Perm.trans ?_ h.whole
    rw [List.perm_iff_count]
    intro e
    have hc := hp.count_eq e
    simp only [Agenda.step, List.count_append] at hc ⊢
    omega
  | hardclock =>
    refine ⟨h.ordered, h.whole, fun x hx => ?_, h.sorted, h.before⟩
    obtain ⟨h₁, h₂⟩ := h.due x hx
    exact ⟨h₁, by simp only [Agenda.step]; omega⟩
  | softclock =>
    rw [Agenda.step]
    split
    · exact h
    · rename_i e q hq
      split
      · rename_i hdue
        have ho := h.ordered
        rw [hq] at ho
        obtain ⟨hlt, hrest⟩ := List.pairwise_cons.1 ho
        refine ⟨hrest, ?_, ?_, ?_, ?_⟩
        · refine List.Perm.trans ?_ h.whole
          rw [hq]
          simp only [List.map_append, List.map_cons, List.map_nil, List.append_assoc, List.cons_append, List.nil_append]
          rw [← List.append_assoc, ← List.append_assoc]
          exact List.perm_middle
        · intro x hx
          rcases List.mem_append.1 hx with hx | hx
          · exact h.due x hx
          · rw [List.mem_singleton.1 hx]
            exact ⟨hdue, Int.le_refl _⟩
        · rw [List.map_append, List.pairwise_append]
          refine ⟨h.sorted, by simp, ?_⟩
          intro d hd d' hd'
          obtain ⟨x, hx, rfl⟩ := List.mem_map.1 hd
          obtain rfl : d' = e.due := by simpa using hd'
          exact h.before x hx e (by simp [hq])
        · intro x hx y hy
          rcases List.mem_append.1 hx with hx | hx
          · exact h.before x hx y (by simp [hq, hy])
          · rw [List.mem_singleton.1 hx]
            exact hlt y hy
      · exact h

theorem Agenda.Ok.agenda (ops : List (Op F A)) : (agenda ops).Ok := by
  have hrun : ∀ (g : Agenda F A), g.Ok → (ops.foldl Agenda.step g).Ok := by
    induction ops with
    | nil => exact fun g h => h
    | cons op ops ih => exact fun g h => ih _ (h.step op)
  exact hrun _ ⟨.nil, .nil, by simp, .nil, by simp⟩

/-- Each operation of the code is the one on the agenda. -/
theorem Keeps.step {s' : State F A} (h : Keeps s g) (hok : g.Ok) {op : Op F A} (hs : step s op = some s') :
    Keeps s' (g.step op) := by
  cases op with
  | timeout f a t =>
    rw [Clock.step, timeout] at hs
    split at hs
    · cases hs
    · cases hs
      have hone : atLeastOne t = g.now + max t 1 - g.now := by
        unfold atLeastOne
        split <;> omega
      refine ⟨h.ticks, ?_, h.calls⟩
      rw [h.calltodo, hone]
      exact timeout_deltas f a hok.ordered (Int.le_refl _) (by omega) (fun e _ he => by omega)
  | untimeout f a =>
    cases hs
    refine ⟨h.ticks, ?_, h.calls⟩
    simp only [untimeout, h.calltodo]
    exact untimeout_deltas f a hok.ordered (fun e _ he => by omega)
  | hardclock =>
    cases hs
    refine ⟨by simp [hardclock, Agenda.step, h.ticks], ?_, h.calls⟩
    simp only [hardclock, h.calltodo]
    exact hardclock_deltas hok.ordered
  | softclock =>
    cases hs
    have hq := h.calltodo
    rw [Agenda.step, softclock]
    cases hg : g.queue with
    | nil =>
      rw [hg, deltas] at hq
      rw [hq]
      exact h
    | cons e q =>
      by_cases he : e.due ≤ g.now
      · rw [hg, deltas_due he] at hq
        rw [hq]
        simp only
        rw [if_pos (by omega), if_pos he]
        exact ⟨h.ticks, rfl, by simp [h.calls, h.ticks]⟩
      · rw [hg, deltas_later (by omega)] at hq
        rw [hq]
        simp only
        rw [if_neg (by omega), if_neg he]
        exact h

theorem Keeps.run {n : Nat} {ops : List (Op F A)} (hs : run n ops = some s) : Keeps s (Clock.agenda ops) := by
  have hrun : ∀ (s₀ : State F A) (g : Agenda F A), g.Ok → Keeps s₀ g → ops.foldlM Clock.step s₀ = some s →
      Keeps s (ops.foldl Agenda.step g) := by
    clear hs
    induction ops with
    | nil =>
      intro s₀ g _ h hs
      cases hs
      exact h
    | cons op ops ih =>
      intro s₀ g hok h hs
      rw [List.foldlM_cons, Option.bind_eq_bind, Option.bind_eq_some_iff] at hs
      obtain ⟨s₁, h₁, hs⟩ := hs
      exact ih s₁ (g.step op) (hok.step op) (h.step hok h₁) hs
  exact hrun _ _ ⟨.nil, .nil, by simp, .nil, by simp⟩ ⟨rfl, rfl, rfl⟩ hs

omit [DecidableEq F] [DecidableEq A] in
/-- A round of `softclock` calls nothing exactly when no entry is due. -/
theorem Keeps.softclock_idle (h : Keeps s g) (hok : g.Ok) :
    (softclock s).calls = s.calls ↔ ∀ e ∈ g.queue, g.now < e.due := by
  have hq := h.calltodo
  have ho := hok.ordered
  rw [softclock]
  cases hg : g.queue with
  | nil =>
    rw [hg, deltas] at hq
    simp [hq]
  | cons e q =>
    rw [hg] at hq ho
    by_cases he : e.due ≤ g.now
    · rw [hq, deltas_due he]
      refine iff_of_false (by simp [he]) (fun hall => ?_)
      have := hall e (by simp)
      omega
    · rw [hq, deltas_later (by omega)]
      simp only
      rw [if_neg (by omega)]
      refine iff_of_true rfl (fun x hx => ?_)
      rcases List.mem_cons.1 hx with rfl | hx
      · omega
      · have : e.due ≤ x.due := List.rel_of_pairwise_cons ho hx
        omega

/-- The rounds of a `softclock` loop that nothing interrupts run all that is due. -/
theorem softclock_drains (g : Agenda F A) (ho : Ordered g.queue) :
    ((List.replicate g.queue.length (Op.softclock : Op F A)).foldl Agenda.step g).now = g.now ∧
      ∀ e ∈ ((List.replicate g.queue.length (Op.softclock : Op F A)).foldl Agenda.step g).queue, g.now < e.due := by
  -- once the first entry is not due, the rest of the rounds do nothing
  have hidle : ∀ (k : Nat) (g : Agenda F A), (∀ e ∈ g.queue, g.now < e.due) →
      (List.replicate k (Op.softclock : Op F A)).foldl Agenda.step g = g := by
    intro k g hall
    induction k with
    | zero => rfl
    | succ k ih =>
      have hg : g.step .softclock = g := by
        rw [Agenda.step]
        split
        · rfl
        · rename_i e q hq
          have := hall e (by simp [hq])
          rw [if_neg (by omega)]
      rw [List.replicate_succ, List.foldl_cons, hg, ih]
  obtain ⟨now, queue, ran, cancelled, entered⟩ := g
  simp only at ho ⊢
  induction queue generalizing ran with
  | nil => simp
  | cons e q ih =>
    by_cases he : e.due ≤ now
    · have hstep : Agenda.step ⟨now, e :: q, ran, cancelled, entered⟩ (Op.softclock : Op F A) =
          ⟨now, q, ran ++ [(e, now)], cancelled, entered⟩ := by simp [Agenda.step, he]
      rw [List.length_cons, List.replicate_succ, List.foldl_cons, hstep]
      exact ih _ (List.Pairwise.of_cons ho)
    · have hall : ∀ x ∈ e :: q, now < x.due := by
        intro x hx
        rcases List.mem_cons.1 hx with rfl | hx
        · omega
        · have : e.due ≤ x.due := List.rel_of_pairwise_cons ho hx
          omega
      rw [hidle _ _ hall]
      exact ⟨rfl, hall⟩

/-- `softclock` never panics. -/
theorem softclock_rounds (s : State F A) (k : Nat) : ∃ s', (List.replicate k Op.softclock).foldlM step s = some s' := by
  induction k generalizing s with
  | zero => exact ⟨s, rfl⟩
  | succ k ih =>
    obtain ⟨s', hs'⟩ := ih (softclock s)
    exact ⟨s', by rw [List.replicate_succ, List.foldlM_cons]; exact hs'⟩

omit [DecidableEq F] [DecidableEq A] in
theorem Keeps.dues (h : Keeps s g) (hok : g.Ok) : Clock.dues s.ticks s.calltodo = g.queue := by
  rw [h.ticks, h.calltodo, dues_deltas hok.ordered]

omit [DecidableEq F] [DecidableEq A] in
theorem deltas_in_range {now base : Int} {es : List (Due F A)} {m : Int} (hm : now ≤ m) (ho : Ordered es) (hnow : now ≤ base)
    (hbase : ∀ e ∈ es, now < e.due → base ≤ e.due) (hes : ∀ e ∈ es, 0 < e.due ∧ e.due ≤ now + m) :
    ∀ c ∈ deltas now base es, -m ≤ c.time ∧ c.time ≤ m := by
  induction es generalizing base with
  | nil => simp [deltas]
  | cons e es ih =>
    obtain ⟨hlt, ho'⟩ := List.pairwise_cons.1 ho
    obtain ⟨hpos, hle⟩ := hes e (by simp)
    have hes' : ∀ x ∈ es, 0 < x.due ∧ x.due ≤ now + m := fun x hx => hes x (by simp [hx])
    intro c hc
    by_cases he : e.due ≤ now
    · rw [deltas_due he] at hc
      rcases List.mem_cons.1 hc with rfl | hc
      · exact ⟨by simp only; omega, by simp only; omega⟩
      · exact ih ho' hnow (fun x hx => hbase x (by simp [hx])) hes' c hc
    · have hb := hbase e (by simp) (by omega)
      rw [deltas_later (by omega)] at hc
      rcases List.mem_cons.1 hc with rfl | hc
      · exact ⟨by simp only; omega, by simp only; omega⟩
      · exact ih ho' (by omega) (fun x hx _ => hlt x hx) hes' c hc

/-- With `int` arguments no `c_time` leaves the `int`s before `ticks` does. -/
theorem callout_in_range {n : Nat} {ops : List (Op F A)} (hs : run n ops = some s)
    (hops : ∀ f a t, .timeout f a t ∈ ops → t < 2 ^ 31) (hticks : s.ticks < 2 ^ 31) :
    ∀ c ∈ s.calltodo, -2 ^ 31 < c.time ∧ c.time < 2 ^ 31 := by
  have hk := Keeps.run hs
  have hok := Agenda.Ok.agenda ops
  have hrun : ∀ g : Agenda F A, 0 ≤ g.now → (∀ e ∈ g.queue, 0 < e.due ∧ e.due ≤ g.now + (2 ^ 31 - 1)) →
      ∀ e ∈ (ops.foldl Agenda.step g).queue, 0 < e.due ∧ e.due ≤ (ops.foldl Agenda.step g).now + (2 ^ 31 - 1) := by
    clear hs hk hok
    induction ops with
    | nil => exact fun g _ h => h
    | cons op ops ih =>
      intro g h0 h
      have hops' : ∀ f a t, .timeout f a t ∈ ops → t < 2 ^ 31 := fun f a t ht => hops f a t (by simp [ht])
      cases op with
      | timeout f a t =>
        have ht := hops f a t (by simp)
        refine ih hops' _ h0 fun e he => ?_
        rcases List.mem_cons.1 ((List.perm_orderedInsert _ _ _).mem_iff.1 he) with rfl | he
        · exact ⟨by simp only; omega, by simp only [Agenda.step]; omega⟩
        · exact h e he
      | untimeout f a => exact ih hops' _ h0 fun e he => h e (List.eraseP_subset he)
      | hardclock =>
        refine ih hops' _ (by simp only [Agenda.step]; omega) fun e he => ?_
        obtain ⟨h₁, h₂⟩ := h e he
        exact ⟨h₁, by simp only [Agenda.step]; omega⟩
      | softclock =>
        have hstep : (g.step .softclock).now = g.now ∧ ∀ e ∈ (g.step .softclock).queue, e ∈ g.queue := by
          rw [Agenda.step]
          split
          · exact ⟨rfl, fun e he => he⟩
          · rename_i e q hq
            split
            · exact ⟨rfl, fun x hx => by simp [hq, hx]⟩
            · exact ⟨rfl, fun x hx => hx⟩
        refine ih hops' _ (by rw [hstep.1]; exact h0) fun e he => ?_
        rw [hstep.1]
        exact h e (hstep.2 e he)
  have hall : ∀ e ∈ (agenda ops).queue, 0 < e.due ∧ e.due ≤ (agenda ops).now + (2 ^ 31 - 1) :=
    hrun ⟨0, [], [], [], []⟩ (Int.le_refl _) (by simp)
  intro c hc
  rw [hk.ticks] at hticks
  rw [hk.calltodo] at hc
  have := deltas_in_range (m := 2 ^ 31 - 1) (by omega) hok.ordered (Int.le_refl _) (fun e _ he => by omega) hall c hc
  omega

theorem callout_in_range_two :
    (run 2 [.timeout 2 0 2147483647, .timeout 1 0 0] : Option (State Nat Nat)) =
        some ⟨[⟨1, 0, 1⟩, ⟨2, 0, 2147483646⟩], 0, 0, []⟩ ∧
      ∀ c ∈ [(⟨1, 0, 1⟩ : Callout Nat Nat), ⟨2, 0, 2147483646⟩], -2 ^ 31 < c.time ∧ c.time < 2 ^ 31 :=
  have hs : (run 2 [.timeout 2 0 2147483647, .timeout 1 0 0] : Option (State Nat Nat)) =
      some ⟨[⟨1, 0, 1⟩, ⟨2, 0, 2147483646⟩], 0, 0, []⟩ := by decide +kernel
  ⟨hs, callout_in_range hs (fun f a t h => by simp at h; omega) (by decide)⟩

/-- In every run the queue stands for the agenda: an entry is due `t` ticks, at
least one, after it was entered, and waits, has run or was cancelled. An entry
that has run was due; entries run in the order of their due ticks. A round of
`softclock` calls nothing only if no entry is due, and the rounds of a loop that
is not interrupted leave none. `timeout` adds its entry and `untimeout` takes
the first that matches, the due ticks of the others are as they were. -/
theorem callout_runs {n : Nat} {ops : List (Op F A)} {s : State F A} (hs : run n ops = some s) :
    (s.ticks = (agenda ops).now ∧ dues s.ticks s.calltodo = (agenda ops).queue ∧
        s.calls = (agenda ops).ran.map fun x => (x.1.func, x.1.arg, x.2)) ∧
      ((agenda ops).queue ++ (agenda ops).ran.map Prod.fst ++ (agenda ops).cancelled).Perm (agenda ops).entered ∧
      (∀ x ∈ (agenda ops).ran, x.1.due ≤ x.2) ∧ ((agenda ops).ran.map (·.1.due)).Pairwise (· ≤ ·) ∧
      ((softclock s).calls = s.calls ↔ ∀ e ∈ dues s.ticks s.calltodo, s.ticks < e.due) ∧
      (∃ k s', run n (ops ++ List.replicate k .softclock) = some s' ∧ s'.ticks = s.ticks ∧
        ∀ e ∈ dues s'.ticks s'.calltodo, s'.ticks < e.due) ∧
      (∀ f a t s', timeout s f a t = some s' → s'.ticks = s.ticks ∧
        (dues s'.ticks s'.calltodo).Perm (⟨f, a, s.ticks + max t 1⟩ :: dues s.ticks s.calltodo)) ∧
      ∀ f a, dues s.ticks (untimeout s f a).calltodo = (dues s.ticks s.calltodo).eraseP (·.is f a) := by
  have hk := Keeps.run hs
  have hok := Agenda.Ok.agenda ops
  have hdues := hk.dues hok
  refine ⟨⟨hk.ticks, hdues, hk.calls⟩, hok.whole, fun x hx => (hok.due x hx).1, hok.sorted, ?_, ?_, ?_, ?_⟩
  · rw [hdues, hk.ticks]
    exact hk.softclock_idle hok
  · obtain ⟨s', hs'⟩ := softclock_rounds s (agenda ops).queue.length
    have hrun : run n (ops ++ List.replicate (agenda ops).queue.length .softclock) = some s' := by
      rw [run, List.foldlM_append, Option.bind_eq_bind, Option.bind_eq_some_iff]
      exact ⟨s, hs, hs'⟩
    have hk' := Keeps.run hrun
    have hok' := Agenda.Ok.agenda (ops ++ List.replicate (agenda ops).queue.length .softclock)
    have hfold : agenda (ops ++ List.replicate (agenda ops).queue.length .softclock) =
        (List.replicate (agenda ops).queue.length .softclock).foldl Agenda.step (agenda ops) := List.foldl_append
    obtain ⟨hnow, hall⟩ := softclock_drains (agenda ops) hok.ordered
    rw [← hfold] at hnow hall
    refine ⟨_, s', hrun, by rw [hk'.ticks, hnow, hk.ticks], ?_⟩
    rw [hk'.dues hok', hk'.ticks, hnow]
    exact hall
  · intro f a t s' ht
    have hstep : step s (.timeout f a t) = some s' := ht
    have hk' := hk.step hok hstep
    refine ⟨hk'.ticks.trans hk.ticks.symm, ?_⟩
    rw [hk'.dues (hok.step _), hdues, hk.ticks]
    exact List.perm_orderedInsert _ _ _
  · intro f a
    have hstep : step s (.untimeout f a) = some (untimeout s f a) := rfl
    have hk' := hk.step hok hstep
    have hd := hk'.dues (hok.step (.untimeout f a))
    rw [hdues]
    exact hd

/-- Two entries for one tick, one behind them that is cancelled, and a clock
that runs past them before `softclock` does. -/
theorem callout_runs_late :
    ∃ s : State Nat Nat, run 8 [.timeout 1 0 2, .timeout 2 0 0, .timeout 3 0 2, .timeout 4 0 5, .untimeout 1 0, .hardclock,
        .hardclock, .hardclock, .softclock, .softclock] = some s ∧
      s.calls = [(2, 0, 3), (3, 0, 3)] ∧ dues s.ticks s.calltodo = [⟨4, 0, 5⟩] ∧ (softclock s).calls = s.calls := by
  have hs : (run 8 [.timeout 1 0 2, .timeout 2 0 0, .timeout 3 0 2, .timeout 4 0 5, .untimeout 1 0, .hardclock,
      .hardclock, .hardclock, .softclock, .softclock] : Option (State Nat Nat)) =
      some ⟨[⟨4, 0, 2⟩], 7, 3, [(2, 0, 3), (3, 0, 3)]⟩ := by decide +kernel
  obtain ⟨-, -, -, -, hidle, -⟩ := callout_runs hs
  exact ⟨_, hs, rfl, rfl, hidle.2 (by decide)⟩

end Runs

end BsdKernel.Clock
