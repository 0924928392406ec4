import BsdKernel.Lib.Linked
import BsdKernel.Lib.Trace
import Mathlib.Tactic
/-!
# The free list of a bucket

`malloc` and `free` of `kern/kern_malloc.c` on one bucket. The state has the
first word of each chunk (`next` of `struct freelist`), `kb_next` and `kb_last`,
and for the statements the chunks the bucket was given and those that callers
hold. `malloc` is two steps when the list is empty: other calls run while
`kmem_malloc` sleeps, and `wake` is its return, with memory the bucket does not
have. Callers write what they hold as they like (`store`). The statistics and
the checks of `KMEMSTATS` and `DIAGNOSTIC` are left out.

`malloc` clears `kb_last` before it sleeps and trusts what it finds there
afterwards. If the list was filled and emptied again in between, that is the
last chunk of a list that is gone: `malloc_runs` says that this is all that can
go wrong, `malloc_runs_stale` is a run where it does.
-/

namespace BsdKernel.Malloc

open BsdKernel.Lib

variable {i a : Nat}

def NBPG : Nat := 4096

def MAXALLOCSAVE : Nat := 2 * NBPG

structure State where
  /-- The first word of a chunk. -/
  mem : Nat → Option Nat
  /-- `kb_next`. -/
  next : Option Nat
  /-- `kb_last`. -/
  last : Option Nat
  /-- The calls of `malloc` that are in `kmem_malloc`. -/
  asleep : Nat
  /-- All chunks of the bucket. -/
  chunks : List Nat
  /-- The chunks that callers hold. -/
  held : List Nat

/-- `1 << indx`. -/
def allocsize (indx : Nat) : Nat := 2 ^ indx

/-- The chunks are not kept on the list when they are freed. -/
def large (indx : Nat) : Bool := allocsize indx > MAXALLOCSAVE

/-- `clrnd(btoc(allocsize))`. -/
def npg (indx : Nat) : Nat := (allocsize indx + NBPG - 1) / NBPG

/-- The chunks in what `kmem_malloc` returns. -/
def elmpercl (indx : Nat) : Nat := npg indx * NBPG / allocsize indx

/-- The loop that links the chunks from the one at `cp` down to `va`; `cp` is
`i` chunks above `va`. -/
def link (size : Nat) (va : Nat) (mem : Nat → Option Nat) : Nat → Nat → Option Nat
  | 0 => mem
  | i + 1 => link size va (Function.update mem (va + (i + 1) * size) (some (va + i * size))) i

/-- The chunks from `i` above `va` down to `va`. -/
def down (size : Nat) (va : Nat) : Nat → List Nat
  | 0 => [va]
  | i + 1 => (va + (i + 1) * size) :: down size va i

/-- `va = kbp->kb_next; kbp->kb_next = va->next`. -/
def pop (s : State) : State :=
  match s.next with
  | none => s
  | some va => { s with next := s.mem va, held := va :: s.held }

/-- `malloc`, up to `kmem_malloc` if the list is empty. -/
def malloc (s : State) : State :=
  if s.next = none then { s with last := none, asleep := s.asleep + 1 } else pop s

/-- The rest of `malloc` after `kmem_malloc` has returned `va`. -/
def wake (indx : Nat) (s : State) : Option Nat → State
  | none => { s with asleep := s.asleep - 1 }
  | some va =>
    if large indx then { s with asleep := s.asleep - 1, chunks := va :: s.chunks, held := va :: s.held }
    else
      let i := elmpercl indx - 1
      pop
        { s with
          mem := Function.update (link (allocsize indx) va s.mem i) va s.next
          next := some (va + i * allocsize indx)
          last := if s.last = none then some va else s.last
          asleep := s.asleep - 1
          chunks := down (allocsize indx) va i ++ s.chunks }

/-- `((struct freelist *)kbp->kb_last)->next = addr`; there is no null `kb_last`
with a list. -/
def linkLast (s : State) (addr : Nat) : Nat → Option Nat :=
  match s.last with
  | none => s.mem
  | some l => Function.update s.mem l (some addr)

def free (indx : Nat) (s : State) (addr : Nat) : State :=
  if large indx then { s with chunks := s.chunks.erase addr, held := s.held.erase addr }
  else
    { s with
      mem := Function.update (if s.next = none then s.mem else linkLast s addr) addr none
      next := if s.next = none then some addr else s.next
      last := some addr
      held := s.held.erase addr }

inductive Op
  | malloc
  | wake (va : Option Nat)
  | free (addr : Nat)
  | store (addr : Nat) (v : Option Nat)
  deriving DecidableEq, Repr

def step (indx : Nat) (s : State) : Op → State
  | .malloc => malloc s
  | .wake va => wake indx s va
  | .free addr => free indx s addr
  | .store addr v => { s with mem := Function.update s.mem addr v }

/-- What callers and `kmem_malloc` do: a caller frees or writes what it holds,
and `kmem_malloc` returns to a call that sleeps in it, with memory that the
bucket does not have. -/
def Legal (indx : Nat) (s : State) : Op → Prop
  | .malloc => True
  | .wake none => 0 < s.asleep
  | .wake (some va) => 0 < s.asleep ∧ ∀ c ∈ (if large indx then [va] else down (allocsize indx) va (elmpercl indx - 1)), c ∉ s.chunks
  | .free addr => addr ∈ s.held
  | .store addr _ => addr ∈ s.held

instance (indx : Nat) (s : State) : ∀ op, Decidable (Legal indx s op)
  | .malloc => inferInstanceAs (Decidable True)
  | .wake none => inferInstanceAs (Decidable (0 < s.asleep))
  | .wake (some _) => inferInstanceAs (Decidable (_ ∧ ∀ c ∈ _, c ∉ s.chunks))
  | .free addr => inferInstanceAs (Decidable (addr ∈ s.held))
  | .store addr _ => inferInstanceAs (Decidable (addr ∈ s.held))

def init : State := ⟨fun _ => none, none, none, 0, [], []⟩

/-- No return of `kmem_malloc` finds an empty list with a `kb_last`, where the
memory makes more than one chunk. -/
def Clean (indx : Nat) (s : State) : Op → Prop
  | .wake (some _) => ¬(large indx = false ∧ 2 ≤ elmpercl indx ∧ s.next = none ∧ s.last ≠ none)
  | _ => True

instance (indx : Nat) (s : State) : ∀ op, Decidable (Clean indx s op)
  | .malloc => inferInstanceAs (Decidable True)
  | .wake none => inferInstanceAs (Decidable True)
  | .wake (some _) => inferInstanceAs (Decidable (¬(_ ∧ _ ∧ _ ∧ _)))
  | .free _ => inferInstanceAs (Decidable True)
  | .store _ _ => inferInstanceAs (Decidable True)

/-- The list has each free chunk once and no other, `kb_last` is its last chunk,
and `free` of a chunk that is held writes no other that is held and adds the
chunk to the list. -/
def Intact (indx : Nat) (s : State) : Prop :=
  ∃ l, Linked s.mem s.next l ∧ l.Nodup ∧ (∀ c, c ∈ l ↔ c ∈ s.chunks ∧ c ∉ s.held) ∧ (l ≠ [] → s.last = l.getLast?) ∧
    ∀ a ∈ s.held, (∀ c ∈ s.held, c ≠ a → (free indx s a).mem c = s.mem c) ∧
      Linked (free indx s a).mem (free indx s a).next (if large indx then l else l ++ [a])

/-! ## The invariant -/

structure Inv (indx : Nat) (s : State) (l : List Nat) : Prop where
  path : Linked s.mem s.next l
  nodup : l.Nodup
  mem : ∀ c, c ∈ l ↔ c ∈ s.chunks ∧ c ∉ s.held
  last : l ≠ [] → s.last = l.getLast?
  held : s.held.Nodup
  chunks : s.chunks.Nodup
  sub : ∀ c ∈ s.held, c ∈ s.chunks
  /-- A `kb_last` that is left over is of the bucket. -/
  stale : ∀ c, s.last = some c → c ∈ s.chunks
  empty : large indx = true → l = [] ∧ s.last = none

section Link
variable {size : Nat} {va : Nat}

theorem link_of_notMem (mem : Nat → Option Nat) (ha : a ∉ down size va i) : link size va mem i a = mem a := by
  induction i generalizing mem with
  | zero => rfl
  | succ i ih =>
    rw [down, List.mem_cons, not_or] at ha
    rw [link, ih _ ha.2, Function.update_of_ne ha.1]

theorem le_of_mem_down (ha : a ∈ down size va i) : va ≤ a ∧ a ≤ va + i * size := by
  induction i with
  | zero =>
    rw [down, List.mem_singleton] at ha
    omega
  | succ i ih =>
    rw [down, List.mem_cons] at ha
    rw [Nat.succ_mul]
    rcases ha with rfl | ha
    · rw [Nat.succ_mul]
      omega
    · have := ih ha
      omega

theorem down_nodup (hsize : 0 < size) (i : Nat) : (down size va i).Nodup := by
  induction i with
  | zero => simp [down]
  | succ i ih =>
    refine List.nodup_cons.2 ⟨fun hm => ?_, ih⟩
    have := (le_of_mem_down hm).2
    rw [Nat.succ_mul] at this
    omega

theorem down_getLast (i : Nat) : (down size va i).getLast? = some va := by
  induction i with
  | zero => rfl
  | succ i ih =>
    rw [down, List.getLast?_cons, ih]
    rfl

theorem path_link (hsize : 0 < size) {mem : Nat → Option Nat} {p : Option Nat} {l : List Nat} (h : Linked mem p l)
    (hl : ∀ a ∈ l, a ∉ down size va i) :
    Linked (Function.update (link size va mem i) va p) (some (va + i * size)) (down size va i ++ l) := by
  induction i generalizing mem with
  | zero =>
    refine ⟨by simp, ?_⟩
    rw [Function.update_self]
    exact h.update (fun hm => hl va hm (by simp [down])) p
  | succ i ih =>
    have hhead : va + (i + 1) * size ∉ down size va i := (List.nodup_cons.1 (down_nodup hsize (i + 1))).1
    have hva : va + (i + 1) * size ≠ va := by
      rw [Nat.succ_mul]
      omega
    refine ⟨rfl, ?_⟩
    rw [Function.update_of_ne hva, link, link_of_notMem _ hhead, Function.update_self]
    exact ih (h.update (fun hm => hl _ hm (by simp [down])) _) fun a ha hm => hl a ha (by simp [down, hm])

end Link

theorem allocsize_pos (indx : Nat) : 0 < allocsize indx := Nat.two_pow_pos indx

section Steps
variable {indx : Nat} {s : State} {l : List Nat}

/-- The first chunk of the list goes to the caller. The last one need be right
for the rest of the list only. -/
theorem pop_inv (hpath : Linked s.mem s.next (a :: l)) (hnodup : (a :: l).Nodup)
    (hmem : ∀ c, c ∈ a :: l ↔ c ∈ s.chunks ∧ c ∉ s.held) (hlast : l ≠ [] → s.last = l.getLast?) (hheld : s.held.Nodup)
    (hchunks : s.chunks.Nodup) (hsub : ∀ c ∈ s.held, c ∈ s.chunks) (hstale : ∀ c, s.last = some c → c ∈ s.chunks)
    (hsmall : large indx = false) : Inv indx (pop s) l := by
  obtain ⟨ha, hl⟩ := List.nodup_cons.1 hnodup
  obtain ⟨hac, hah⟩ := (hmem a).1 (by simp)
  have hpop : pop s = { s with next := s.mem a, held := a :: s.held } := by rw [pop, hpath.1]
  rw [hpop]
  refine ⟨hpath.2, hl, fun c => ?_, hlast, List.nodup_cons.2 ⟨hah, hheld⟩, hchunks, fun c hc => ?_, hstale,
    fun h => by simp [hsmall] at h⟩
  · constructor
    · intro hc
      obtain ⟨h₁, h₂⟩ := (hmem c).1 (List.mem_cons_of_mem a hc)
      refine ⟨h₁, fun hm => ?_⟩
      rcases List.mem_cons.1 hm with rfl | hm
      · exact ha hc
      · exact h₂ hm
    · rintro ⟨h₁, h₂⟩
      rw [List.mem_cons, not_or] at h₂
      exact (List.mem_cons.1 ((hmem c).2 ⟨h₁, h₂.2⟩)).resolve_left h₂.1
  · rcases List.mem_cons.1 hc with rfl | hc
    · exact hac
    · exact hsub c hc

theorem malloc_inv (h : Inv indx s l) : ∃ l', Inv indx (malloc s) l' := by
  unfold malloc
  split
  · rename_i hn
    obtain rfl := h.path.eq_nil_iff.2 hn
    exact ⟨[], h.path, h.nodup, h.mem, fun hne => absurd rfl hne, h.held, h.chunks, h.sub, fun c hc => (by cases hc),
      fun _ => ⟨rfl, rfl⟩⟩
  · rename_i hn
    cases l with
    | nil => exact absurd h.path hn
    | cons a l =>
      have hlast : l ≠ [] → s.last = l.getLast? := by
        intro hne
        rw [h.last (by simp)]
        cases l with
        | nil => exact absurd rfl hne
        | cons b l => simp
      have hsmall : large indx = false := by
        by_contra hb
        simpa using (h.empty (by simpa using hb)).1
      exact ⟨l, pop_inv h.path h.nodup h.mem hlast h.held h.chunks h.sub h.stale hsmall⟩

/-- The list and the chunks when `kmem_malloc` has returned, before the first
chunk is taken. -/
theorem wake_list (h : Inv indx s l) {va : Nat} (hfresh : ∀ c ∈ down (allocsize indx) va i, c ∉ s.chunks) :
    Linked (Function.update (link (allocsize indx) va s.mem i) va s.next) (some (va + i * allocsize indx))
        (down (allocsize indx) va i ++ l) ∧
      (down (allocsize indx) va i ++ l).Nodup ∧
      ∀ c, c ∈ down (allocsize indx) va i ++ l ↔ c ∈ down (allocsize indx) va i ++ s.chunks ∧ c ∉ s.held := by
  have hl : ∀ a ∈ l, a ∉ down (allocsize indx) va i := fun a ha hm => hfresh a hm ((h.mem a).1 ha).1
  refine ⟨path_link (allocsize_pos indx) h.path hl, ?_, fun c => ?_⟩
  · exact List.nodup_append'.2 ⟨down_nodup (allocsize_pos indx) i, h.nodup, fun a ha hl' => hl a hl' ha⟩
  · rw [List.mem_append, List.mem_append, h.mem]
    constructor
    · rintro (hc | ⟨h₁, h₂⟩)
      · exact ⟨.inl hc, fun hh => hfresh c hc (h.sub c hh)⟩
      · exact ⟨.inr h₁, h₂⟩
    · rintro ⟨hc | hc, h₂⟩
      · exact .inl hc
      · exact .inr ⟨hc, h₂⟩

theorem down_cons (size va i : Nat) :
    ∃ rest, down size va i = (va + i * size) :: rest ∧ (i = 0 → rest = []) ∧ (0 < i → rest.getLast? = some va) := by
  cases i with
  | zero => exact ⟨[], by simp [down], fun _ => rfl, fun h => by omega⟩
  | succ i => exact ⟨down size va i, rfl, fun h => by omega, fun _ => down_getLast i⟩

theorem wake_inv (h : Inv indx s l) {va : Option Nat} (hlegal : Legal indx s (.wake va))
    (hclean : Clean indx s (.wake va)) : ∃ l', Inv indx (wake indx s va) l' := by
  cases va with
  | none => exact ⟨l, h.path, h.nodup, h.mem, h.last, h.held, h.chunks, h.sub, h.stale, h.empty⟩
  | some va =>
    obtain ⟨-, hfresh⟩ := hlegal
    rw [wake]
    split
    · rename_i hlarge
      rw [if_pos hlarge] at hfresh
      have hva : va ∉ s.chunks := hfresh va (by simp)
      obtain ⟨rfl, hnone⟩ := h.empty hlarge
      refine ⟨[], h.path, h.nodup, fun c => ?_, h.last, List.nodup_cons.2 ⟨fun hm => hva (h.sub va hm), h.held⟩,
        List.nodup_cons.2 ⟨hva, h.chunks⟩, fun c hc => ?_, fun c hc => by simp [hnone] at hc, fun _ => ⟨rfl, hnone⟩⟩
      · have hm := h.mem c
        simp only [List.mem_cons, List.not_mem_nil, false_iff] at hm ⊢
        tauto
      · rcases List.mem_cons.1 hc with rfl | hc
        · simp
        · exact List.mem_cons_of_mem _ (h.sub c hc)
    · rename_i hsmall
      rw [if_neg hsmall] at hfresh
      have hsmall' : large indx = false := by simpa using hsmall
      obtain ⟨hpath, hnodup, hmem⟩ := wake_list h hfresh
      obtain ⟨rest, hdown, hone, hmore⟩ := down_cons (allocsize indx) va (elmpercl indx - 1)
      have hchunks : (down (allocsize indx) va (elmpercl indx - 1) ++ s.chunks).Nodup :=
        List.nodup_append'.2 ⟨down_nodup (allocsize_pos indx) _, h.chunks, fun a ha hc => hfresh a ha hc⟩
      have hva : va ∈ down (allocsize indx) va (elmpercl indx - 1) := List.mem_of_getLast? (down_getLast _)
      rw [hdown, List.cons_append] at hpath hnodup
      refine ⟨rest ++ l, pop_inv hpath hnodup ?_ ?_ h.held hchunks
        (fun c hc => List.mem_append_right _ (h.sub c hc)) ?_ hsmall'⟩
      · intro c
        rw [← List.cons_append, ← hdown]
        exact hmem c
      · intro hne
        simp only
        by_cases hl : l = []
        · subst hl
          -- the list was empty: a page of one chunk leaves nothing, else `kb_last` is null
          rw [List.append_nil] at hne ⊢
          have hi : 0 < elmpercl indx - 1 := Nat.pos_of_ne_zero fun h0 => hne (hone h0)
          have hnone : s.last = none := by
            by_contra hlast
            exact hclean ⟨hsmall', by omega, h.path, hlast⟩
          rw [if_pos hnone, hmore hi]
        · rw [h.last hl, List.getLast?_append, if_neg (by simpa using hl)]
          cases hz : l.getLast? with
          | none => exact absurd (List.getLast?_eq_none_iff.1 hz) hl
          | some z => rfl
      · intro c hc
        simp only at hc
        split at hc
        · cases hc
          exact List.mem_append_left _ hva
        · exact List.mem_append_right _ (h.stale c hc)

/-- What `free` does to the list. -/
theorem free_list (h : Inv indx s l) (hsmall : large indx = false) (ha : a ∈ s.held) :
    Linked (free indx s a).mem (free indx s a).next (l ++ [a]) ∧ ∀ c ∈ s.held, c ≠ a → (free indx s a).mem c = s.mem c := by
  have hal : a ∉ l := fun hm => ((h.mem a).1 hm).2 ha
  rw [free, if_neg (by simp [hsmall])]
  by_cases hl : l = []
  · subst hl
    have hn : s.next = none := h.path
    simp only [if_pos hn]
    refine ⟨⟨rfl, ?_⟩, fun c _ hc => Function.update_of_ne hc none s.mem⟩
    rw [Function.update_self]
    rfl
  · have hn : s.next ≠ none := fun hn => hl (h.path.eq_nil_iff.2 hn)
    obtain ⟨z, hz⟩ : ∃ z, l.getLast? = some z :=
      Option.ne_none_iff_exists'.1 fun hnone => hl (List.getLast?_eq_none_iff.1 hnone)
    have hlast : s.last = some z := (h.last hl).trans hz
    simp only [if_neg hn, linkLast, hlast]
    refine ⟨h.path.snoc h.nodup hal hz, fun c hc hca => ?_⟩
    have hcz : c ≠ z := by
      rintro rfl
      exact ((h.mem c).1 (List.mem_of_getLast? hz)).2 hc
    rw [Function.update_of_ne hca, Function.update_of_ne hcz]

theorem free_inv (h : Inv indx s l) (ha : a ∈ s.held) : ∃ l', Inv indx (free indx s a) l' := by
  have hmem : ∀ c, c ∈ s.held.erase a ↔ c ≠ a ∧ c ∈ s.held := fun c => h.held.mem_erase_iff
  cases hlarge : large indx with
  | true =>
    obtain ⟨rfl, hnone⟩ := h.empty hlarge
    rw [free, if_pos hlarge]
    refine ⟨[], h.path, h.nodup, fun c => ?_, fun hne => absurd rfl hne, h.held.erase a, h.chunks.erase a, fun c hc => ?_,
      fun c hc => by simp [hnone] at hc, fun _ => ⟨rfl, hnone⟩⟩
    · have hm := h.mem c
      simp only [List.not_mem_nil, false_iff, h.chunks.mem_erase_iff, hmem] at hm ⊢
      tauto
    · exact (h.chunks.mem_erase_iff).2 ⟨((hmem c).1 hc).1, h.sub c ((hmem c).1 hc).2⟩
  | false =>
    have hal : a ∉ l := fun hm => ((h.mem a).1 hm).2 ha
    have hpath := (free_list h hlarge ha).1
    rw [free, if_neg (by simp [hlarge])] at hpath ⊢
    refine ⟨l ++ [a], hpath, ?_, fun c => ?_, fun _ => by simp, h.held.erase a, h.chunks,
      fun c hc => h.sub c ((hmem c).1 hc).2, fun c hc => ?_, fun hb => by simp [hlarge] at hb⟩
    · exact List.nodup_append'.2 ⟨h.nodup, by simp, by simpa using hal⟩
    · simp only [List.mem_append, List.mem_singleton, h.mem, hmem]
      constructor
      · rintro (⟨h₁, h₂⟩ | rfl)
        · exact ⟨h₁, fun hc => h₂ hc.2⟩
        · exact ⟨h.sub c ha, fun hc => hc.1 rfl⟩
      · rintro ⟨h₁, h₂⟩
        by_cases hca : c = a
        · exact .inr hca
        · exact .inl ⟨h₁, fun hc => h₂ ⟨hca, hc⟩⟩
    · obtain rfl : a = c := Option.some.inj hc
      exact h.sub a ha

theorem step_inv (h : Inv indx s l) {op : Op} (hlegal : Legal indx s op) (hclean : Clean indx s op) :
    ∃ l', Inv indx (step indx s op) l' := by
  cases op with
  | malloc => exact malloc_inv h
  | wake va => exact wake_inv h hlegal hclean
  | free a => exact free_inv h hlegal
  | store a v =>
    have hal : a ∉ l := fun hm => ((h.mem a).1 hm).2 hlegal
    exact ⟨l, h.path.update hal v, h.nodup, h.mem, h.last, h.held, h.chunks, h.sub, h.stale, h.empty⟩

theorem Inv.intact (h : Inv indx s l) : Intact indx s := by
  refine ⟨l, h.path, h.nodup, h.mem, h.last, fun a ha => ?_⟩
  cases hlarge : large indx with
  | true =>
    rw [free, if_pos hlarge]
    exact ⟨fun c _ _ => rfl, h.path⟩
  | false =>
    obtain ⟨hpath, hkeep⟩ := free_list h hlarge ha
    exact ⟨hkeep, hpath⟩

/-- With a `kb_last` left over and an empty list, `malloc` leaves a list whose
last chunk is another. -/
theorem not_intact_of_stale (h : Inv indx s l) {va : Nat} (hlegal : Legal indx s (.wake (some va)))
    (hstale : ¬Clean indx s (.wake (some va))) : ¬Intact indx (wake indx s (some va)) := by
  obtain ⟨hsmall, htwo, hn, hlast⟩ := not_not.1 hstale
  obtain ⟨-, hfresh⟩ := hlegal
  rw [if_neg (by simp [hsmall])] at hfresh
  obtain rfl := h.path.eq_nil_iff.2 hn
  obtain ⟨x, hx⟩ := Option.ne_none_iff_exists'.1 hlast
  obtain ⟨hpath, -, -⟩ := wake_list h hfresh
  obtain ⟨rest, hdown, -, hmore⟩ := down_cons (allocsize indx) va (elmpercl indx - 1)
  have hva : va ∈ down (allocsize indx) va (elmpercl indx - 1) := List.mem_of_getLast? (down_getLast _)
  have hrest := hmore (by omega)
  rw [List.append_nil, hdown] at hpath
  rintro ⟨l', hpath', -, -, hlast', -⟩
  rw [wake, if_neg (by simp [hsmall]), pop] at hpath' hlast'
  obtain rfl := hpath.2.unique hpath'
  have hxva := hlast' (by rintro rfl; simp at hrest)
  rw [hrest] at hxva
  simp only [hx, reduceCtorEq, if_false, Option.some.injEq] at hxva
  exact hfresh va hva (hxva ▸ h.stale x hx)

end Steps

/-- Of the runs of `malloc` and `free` on a bucket, those in which every state
is intact are exactly those in which no `malloc` comes back from `kmem_malloc` to
an empty list with a `kb_last` that is not null, for a bucket with several
chunks to a page. -/
theorem malloc_runs (indx : Nat) (ops : List Op) (hlegal : Along (step indx) (Legal indx) init ops) :
    (∀ s ∈ states (step indx) init ops, Intact indx s) ↔ Along (step indx) (Clean indx) init ops := by
  refine states_iff_along (I := fun s => ∃ l, Inv indx s l) ?_ ?_ ?_ ⟨[], ?_⟩ hlegal
  · rintro s op ⟨l, h⟩ hl hc
    exact step_inv h hl hc
  · rintro s ⟨l, h⟩
    exact h.intact
  · rintro s op ⟨l, h⟩ hl hc
    cases op with
    | malloc => exact absurd trivial hc
    | free a => exact absurd trivial hc
    | store a v => exact absurd trivial hc
    | wake va =>
      cases va with
      | none => exact absurd trivial hc
      | some va => exact not_intact_of_stale h hl hc
  · exact ⟨rfl, .nil, by simp [init], fun h => absurd rfl h, .nil, .nil, by simp [init], by simp [init], fun _ => ⟨rfl, rfl⟩⟩

/-- Two calls asleep at once, with a list in between: no `kb_last` is left over. -/
theorem malloc_runs_clean :
    Intact 11 (final (step 11) init
      [.malloc, .malloc, .wake (some 4096), .store 6144 none, .free 6144, .wake (some 8192)]) :=
  (malloc_runs 11 _ (by decide +kernel)).2 (by decide +kernel) _ (final_mem_states _ _ _)

/-- A call sleeps in `kmem_malloc` while a chunk is freed and taken again. When
it comes back, `kb_last` is that chunk, and the next `free` writes to it and
loses its own. -/
theorem malloc_runs_stale :
    ∃ ops, Along (step 11) (Legal 11) init ops ∧ ¬Intact 11 (final (step 11) init ops) ∧
      (final (step 11) init ops).last = some 4096 ∧ 4096 ∈ (final (step 11) init ops).held ∧
      6144 ∈ (final (step 11) init ops).held ∧
      (free 11 (final (step 11) init ops) 6144).mem 4096 = some 6144 ∧
      Linked (free 11 (final (step 11) init ops) 6144).mem (free 11 (final (step 11) init ops) 6144).next [8192] := by
  let s := final (step 11) init [.malloc, .wake (some 4096), .malloc, .malloc, .free 4096, .malloc, .wake (some 8192)]
  have hnext : s.next = some 8192 := by decide +kernel
  have hmem : s.mem 8192 = none := by decide +kernel
  have hlast : s.last = some 4096 := by decide +kernel
  refine ⟨_, by decide +kernel, ?_, hlast, by decide +kernel, by decide +kernel, by decide +kernel, ?_, ?_⟩
  · rintro ⟨l, hl, -, -, hl', -⟩
    obtain rfl : l = [8192] := hl.unique ⟨hnext, hmem⟩
    exact absurd (hlast.symm.trans (hl' (by simp))) (by simp)
  · show (free 11 s 6144).next = some 8192
    decide +kernel
  · show (free 11 s 6144).mem 8192 = none
    decide +kernel

end BsdKernel.Malloc
