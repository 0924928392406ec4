import BsdKernel.Kern.UnpMark
/-!
# The sweep

After the mark phase `unp_gc` takes an extra reference to each file it found to be
garbage, flushes their receive queues and drops the references. A file is closed when
nothing holds it any more, and only then are the connections on its accept queue
flushed: `SweepInv` says what holds between two of the calls.
-/

namespace BsdKernel.Unp

variable {s₀ s s' : Sys} {fds : Nat → Nat} {stack : List Act}
variable {so f g : Nat}

/-! ## References -/

def Sys.flush (s : Sys) (so : Nat) : Sys :=
  { s with socket := Function.update s.socket so { s.socket so with rcv := [] } }

@[simp] theorem flush_rcv (s : Sys) (so : Nat) : ((s.flush so).socket so).rcv = [] := by
  simp only [Sys.flush, Function.update_self]

theorem flush_ne {so' : Nat} (h : so' ≠ so) (s : Sys) : (s.flush so).socket so' = s.socket so' :=
  Function.update_of_ne h ..

/-- What is summed over the queues loses the part of the one that is flushed. -/
theorem sum_flush (so : Nat) (hsockets : s.sockets.Nodup) {n : List (List Nat) → Nat} (hn : n [] = 0)
    (hso : so ∉ s.sockets → n (s.socket so).rcv = 0) :
    (s.sockets.map fun so' => n ((s.flush so).socket so').rcv).sum + n (s.socket so).rcv =
      (s.sockets.map fun so' => n (s.socket so').rcv).sum := by
  have hrest : ((s.sockets.erase so).map fun so' => n ((s.flush so).socket so').rcv) =
      (s.sockets.erase so).map fun so' => n (s.socket so').rcv := by
    refine List.map_congr_left fun so' hso' => ?_
    rw [flush_ne fun he => hsockets.not_mem_erase (he ▸ hso')]
  by_cases hmem : so ∈ s.sockets
  · have hnew := List.sum_map_erase (fun so' => n ((s.flush so).socket so').rcv) hmem
    have hold := List.sum_map_erase (fun so' => n (s.socket so').rcv) hmem
    simp only [flush_rcv, hn, hrest] at hnew hold
    omega
  · rw [List.erase_of_not_mem hmem] at hrest
    rw [hrest, hso hmem, Nat.add_zero]

theorem exists_queue_of_refs (h : s.refs f ≠ 0) : ∃ so ∈ s.sockets, f ∈ (s.socket so).rcv.flatten := by
  by_contra hno
  push Not at hno
  refine h (List.sum_eq_zero fun n hn => ?_)
  obtain ⟨so, hso, rfl⟩ := List.mem_map.1 hn
  exact List.count_eq_zero.2 (hno so hso)

/-- The call drops a reference to the file. -/
def Act.drops (f : Nat) : Act → Bool
  | .closef g => g == f
  | .discard g => g == f
  | .sorflush _ => false

def pending (stack : List Act) (f : Nat) : Nat := stack.countP (Act.drops f)

theorem pending_discard (l : List Nat) (f : Nat) : pending (l.map .discard) f = l.count f := by
  rw [pending, List.countP_map]
  exact List.countP_congr fun g _ => by simp [Act.drops]

theorem pending_append (l l' : List Act) (f : Nat) : pending (l ++ l') f = pending l f + pending l' f :=
  List.countP_append

/-! ## Between two calls -/

/-- The file is open, and `unp_gc` does not mark it. -/
structure Garbage (s₀ : Sys) (fds : Nat → Nat) (f : Nat) : Prop where
  mem : f ∈ s₀.filehead
  used : (s₀.file f).count ≠ 0
  unreached : ¬ReachRcv s₀ fds f

/-- The queue is that of a file that is garbage, or of a connection on the accept queue
of one that is closed. -/
def Flushable (s₀ : Sys) (fds : Nat → Nat) (s : Sys) (so : Nat) : Prop :=
  ∃ f, Garbage s₀ fds f ∧
    (s₀.data f = some so ∨ (f ∉ s.filehead ∧ ∃ head, s₀.data f = some head ∧ so ∈ (s₀.socket head).q))

/-- The files out of reach that hold each other through accept queues. -/
def Stuck (s₀ : Sys) (fds : Nat → Nat) (S : Set Nat) : Prop :=
  ∀ g ∈ S, g ∈ s₀.filehead ∧ ¬ReachRcv s₀ fds g ∧ ∃ f ∈ S, s₀.Waiting f g

structure SweepInv (s₀ : Sys) (fds : Nat → Nat) (s : Sys) (stack : List Act) : Prop where
  kind : ∀ f, (s.file f).kind = (s₀.file f).kind
  sockets : s.sockets = s₀.sockets
  socket : ∀ so, (s.socket so).rights = (s₀.socket so).rights ∧ (s.socket so).q = (s₀.socket so).q
  files : s.filehead.Nodup
  sub : ∀ f ∈ s.filehead, f ∈ s₀.filehead
  counts : ∀ f ∈ s.filehead, (s.file f).count = fds f + s.refs f + pending stack f
  gone : ∀ f, f ∉ s.filehead → fds f = 0 ∧ s.refs f = 0 ∧ pending stack f = 0
  used : ∀ f ∈ s.filehead, (s₀.file f).count ≠ 0 → 0 < (s.file f).count
  unused : ∀ f, (s₀.file f).count = 0 → pending stack f = 0
  closed : ∀ f ∈ s₀.filehead, f ∉ s.filehead → Garbage s₀ fds f
  rcv : ∀ so, (s.socket so).rcv = (s₀.socket so).rcv ∨ ((s.socket so).rcv = [] ∧ Flushable s₀ fds s so)
  flushes : ∀ so, .sorflush so ∈ stack → Flushable s₀ fds s so
  flushed : ∀ so, Flushable s₀ fds s so → (s.socket so).rcv = [] ∨ .sorflush so ∈ stack
  stuck : ∀ S : Set Nat, Stuck s₀ fds S → ∀ g ∈ S, g ∈ s.filehead

namespace SweepInv

theorem data (h : SweepInv s₀ fds s stack) (f : Nat) : s.data f = s₀.data f := by
  rw [Sys.data, Sys.data, h.kind f]

theorem mem_rcv (h : SweepInv s₀ fds s stack) (hf : f ∈ (s.socket so).rcv.flatten) :
    f ∈ (s₀.socket so).rcv.flatten := by
  rcases h.rcv so with hr | ⟨hr, -⟩
  · rwa [hr] at hf
  · simp [hr] at hf

theorem flushable_of_refs (hc : Correct s₀ fds) (h : SweepInv s₀ fds s stack) (hrefs : s.refs f = 0)
    (hf : f ∈ (s₀.socket so).rcv.flatten) : Flushable s₀ fds s so := by
  rcases h.rcv so with hr | ⟨-, hr⟩
  · have hso := (hc.queues so (List.ne_nil_of_mem hf)).1
    rw [← hr] at hf
    have := refs_pos (h.sockets.symm ▸ hso) hf
    omega
  · exact hr

theorem sockets_of_rcv (hc : Correct s₀ fds) (h : SweepInv s₀ fds s stack) (hne : (s.socket so).rcv.flatten ≠ []) :
    so ∈ s.sockets ∧ (s.socket so).rights = true := by
  obtain ⟨f, hf⟩ := List.exists_mem_of_ne_nil _ hne
  obtain ⟨hso, hr, -⟩ := hc.queues so (List.ne_nil_of_mem (h.mem_rcv hf))
  exact ⟨h.sockets.symm ▸ hso, (h.socket so).1.trans hr⟩

theorem rcv_of_not_mem (hc : Correct s₀ fds) (h : SweepInv s₀ fds s stack) (hso : so ∉ s.sockets) :
    (s.socket so).rcv.flatten = [] := by
  by_contra hne
  exact hso (h.sockets_of_rcv hc hne).1

end SweepInv

theorem Flushable.not_reach (hc : Correct s₀ fds) (h : Flushable s₀ fds s so) (hg : ReachRcv s₀ fds g) :
    s₀.data g ≠ some so := by
  intro hd
  have hmem := (hg.isOpen hc).1
  obtain ⟨f, hf, hso | ⟨-, head, hhead, hq⟩⟩ := h
  · exact hf.unreached (hc.owner f hf.mem g hmem so hso hd ▸ hg)
  · exact (hc.accept f hf.mem head hhead so hq).1 g hmem hd

/-- The queue of a connection is flushed only when the socket it waits on is closed. -/
theorem Flushable.closed_of_waiting (hc : Correct s₀ fds) {head : Nat} (h : Flushable s₀ fds s so)
    (hf : f ∈ s₀.filehead) (hhead : s₀.data f = some head) (hq : so ∈ (s₀.socket head).q) : f ∉ s.filehead := by
  obtain ⟨g, hg, hso | ⟨hclosed, head', hhead', hq'⟩⟩ := h
  · exact absurd hso ((hc.accept f hf head hhead so hq).1 g hg.mem)
  · rw [(hc.accept f hf head hhead so hq).2 g hg.mem head' hhead' hq']
    exact hclosed

theorem Flushable.mono (h : Flushable s₀ fds s so) (hsub : ∀ f ∈ s'.filehead, f ∈ s.filehead) :
    Flushable s₀ fds s' so := by
  obtain ⟨f, hf, h⟩ := h
  exact ⟨f, hf, h.imp_right fun ⟨hclosed, hq⟩ => ⟨fun hmem => hclosed (hsub f hmem), hq⟩⟩

/-! ## One call -/

namespace SweepInv

/-- A call that changes the count of one file by the references that are still to be dropped. -/
theorem setFile (h : SweepInv s₀ fds s stack) {g : File → File} {stack' : List Act}
    (hkind : (g (s.file f)).kind = (s.file f).kind)
    (hcount : ((g (s.file f)).count : Int) = (s.file f).count + pending stack' f - pending stack f)
    (hle : pending stack' f ≤ pending stack f) (hused : (s₀.file f).count ≠ 0 → 0 < (g (s.file f)).count)
    (hpending : ∀ f', f' ≠ f → pending stack' f' = pending stack f')
    (hflush : ∀ so, .sorflush so ∈ stack' ↔ Act.sorflush so ∈ stack) : SweepInv s₀ fds (s.setFile f g) stack' := by
  have hpend : ∀ f', pending stack' f' ≤ pending stack f' := by
    intro f'
    by_cases hff : f' = f
    · rwa [hff]
    · rw [hpending f' hff]
  exact
    { kind := fun f' => by
        rw [← h.kind f']
        by_cases hff : f' = f
        · rw [hff, setFile_same, hkind]
        · rw [setFile_ne hff]
      sockets := h.sockets
      socket := h.socket
      files := h.files
      sub := h.sub
      counts := fun f' hf' => by
        have hold := h.counts f' hf'
        by_cases hff : f' = f
        · subst hff
          rw [setFile_same, hcount, hold, show (s.setFile f' g).refs f' = s.refs f' from rfl]
          omega
        · rw [setFile_ne hff, hold, hpending f' hff]
          rfl
      gone := fun f' hf' => by
        obtain ⟨hfd, hrefs, hzero⟩ := h.gone f' hf'
        exact ⟨hfd, hrefs, by have := hpend f'; omega⟩
      used := fun f' hf' hu => by
        by_cases hff : f' = f
        · subst hff
          rw [setFile_same]
          exact hused hu
        · rw [setFile_ne hff]
          exact h.used f' hf' hu
      unused := fun f' hu => by
        have := h.unused f' hu
        have := hpend f'
        omega
      closed := h.closed
      rcv := h.rcv
      flushes := fun so hso => h.flushes so ((hflush so).1 hso)
      flushed := fun so hso => (h.flushed so hso).imp_right (hflush so).2
      stuck := h.stuck }

theorem pending_cons_of_drops {a : Act} (ha : a.drops f = true) (stack : List Act) :
    pending (a :: stack) f = pending stack f + 1 := List.countP_cons_of_pos ha

theorem pending_cons_of_ne {a : Act} (ha : a.drops f = false) (stack : List Act) :
    pending (a :: stack) f = pending stack f := List.countP_cons_of_neg (by simp [ha])

theorem discard (h : SweepInv s₀ fds s (.discard f :: stack)) :
    SweepInv s₀ fds (s.setFile f fun fp => { fp with msgcount := fp.msgcount - 1 }) (.closef f :: stack) := by
  refine h.setFile rfl ?_ ?_ (fun hu => ?_) (fun f' hf' => ?_) fun so => ?_
  · simp [pending, Act.drops]
  · simp [pending, Act.drops]
  · by_cases hf : f ∈ s.filehead
    · exact h.used f hf hu
    · have := (h.gone f hf).2.2
      simp [pending, Act.drops] at this
  · simp [pending, List.countP_cons, Act.drops]
  · simp

theorem mem_of_closef (h : SweepInv s₀ fds s (.closef f :: stack)) :
    f ∈ s.filehead ∧ (s₀.file f).count ≠ 0 ∧ (s.file f).count = fds f + s.refs f + pending stack f + 1 := by
  have hpend : pending (.closef f :: stack) f = pending stack f + 1 := pending_cons_of_drops (by simp [Act.drops]) _
  have hf : f ∈ s.filehead := by
    by_contra hf
    have := (h.gone f hf).2.2
    omega
  refine ⟨hf, fun hu => ?_, ?_⟩
  · have := h.unused f hu
    omega
  · rw [h.counts f hf, hpend]
    push_cast
    ring

theorem closef_held (h : SweepInv s₀ fds s (.closef f :: stack)) (hpos : 0 < (s.file f).count - 1) :
    SweepInv s₀ fds (s.setFile f fun fp => { fp with count := fp.count - 1 }) stack := by
  have hpend : pending (.closef f :: stack) f = pending stack f + 1 := pending_cons_of_drops (by simp [Act.drops]) _
  refine h.setFile rfl ?_ (by omega) (fun _ => hpos) (fun f' hf' => ?_) fun so => ?_
  · rw [hpend]
    push_cast
    ring
  · exact (pending_cons_of_ne (by simp [Act.drops, Ne.symm hf']) _).symm
  · simp

theorem garbage_of_refs (hc : Correct s₀ fds) (h : SweepInv s₀ fds s stack) (hf : f ∈ s.filehead)
    (hu : (s₀.file f).count ≠ 0) (hfds : fds f = 0) (hrefs : s.refs f = 0) : Garbage s₀ fds f := by
  refine ⟨h.sub f hf, hu, fun hreach => ?_⟩
  cases hreach with
  | held hpos => omega
  | queued hg hq =>
    obtain ⟨so, hd, hmem⟩ := hq
    exact (h.flushable_of_refs hc hrefs hmem).not_reach hc hg hd

/-- Files that hold each other through accept queues do not lose their last reference. -/
theorem refs_of_stuck (hc : Correct s₀ fds) (h : SweepInv s₀ fds s stack) {S : Set Nat} (hS : Stuck s₀ fds S)
    (hg : g ∈ S) : s.refs g ≠ 0 := by
  intro hrefs
  obtain ⟨-, -, f, hf, head, hd, so, hq, hmem⟩ := hS g hg
  exact (h.flushable_of_refs hc hrefs hmem).closed_of_waiting hc (hS f hf).1 hd hq (h.stuck S hS f hf)

theorem mem_flushes (h : SweepInv s₀ fds s stack) :
    .sorflush so ∈ s.flushes f ↔
      s₀.data f = some so ∨ ∃ head, s₀.data f = some head ∧ so ∈ (s₀.socket head).q := by
  unfold Sys.flushes
  rw [h.data f]
  cases s₀.data f with
  | none => simp
  | some head =>
    simp only [(h.socket head).2, List.mem_append, List.mem_map, List.mem_singleton, Act.sorflush.injEq, exists_eq_right,
      Option.some.injEq, exists_eq_left']
    tauto

/-- The last reference is dropped. -/
theorem closef_last (hc : Correct s₀ fds) (h : SweepInv s₀ fds s (.closef f :: stack))
    (hzero : (s.file f).count - 1 = 0) :
    SweepInv s₀ fds { s.setFile f fun fp => { fp with count := fp.count - 1 } with filehead := s.filehead.erase f }
      (s.flushes f ++ stack) := by
  obtain ⟨hf, hu, hcount⟩ := h.mem_of_closef
  obtain ⟨hfds, hrefs, hnone⟩ : fds f = 0 ∧ s.refs f = 0 ∧ pending stack f = 0 := by omega
  have hgarbage := h.garbage_of_refs hc hf hu hfds hrefs
  have hsub : ∀ g ∈ s.filehead.erase f, g ∈ s.filehead := fun g hg => List.mem_of_mem_erase hg
  have hne : ∀ g ∈ s.filehead.erase f, g ≠ f := fun g hg he => h.files.not_mem_erase (he ▸ hg)
  have hpend : ∀ g, pending (s.flushes f ++ stack) g = pending stack g := by
    intro g
    have hflush : pending (s.flushes f) g = 0 := by
      unfold Sys.flushes
      split <;> simp [pending, Act.drops, List.countP_eq_zero]
    rw [pending_append, hflush, Nat.zero_add]
  have hother : ∀ g, g ≠ f → pending (.closef f :: stack) g = pending stack g :=
    fun g hg => pending_cons_of_ne (by simp [Act.drops, Ne.symm hg]) _
  exact
    { kind := fun g => by
        rw [← h.kind g]
        by_cases hgf : g = f
        · simp only [hgf, setFile_same]
        · simp only [setFile_ne hgf]
      sockets := h.sockets
      socket := h.socket
      files := h.files.erase f
      sub := fun g hg => h.sub g (hsub g hg)
      counts := fun g hg => by
        simp only [setFile_ne (hne g hg), hpend, h.counts g (hsub g hg), hother g (hne g hg)]
        rfl
      gone := fun g hg => by
        rw [hpend]
        by_cases hgf : g = f
        · subst hgf
          exact ⟨hfds, hrefs, hnone⟩
        · have hold := h.gone g fun hmem => hg ((List.mem_erase_of_ne hgf).2 hmem)
          rw [hother g hgf] at hold
          exact hold
      used := fun g hg hu => by
        simp only [setFile_ne (hne g hg)]
        exact h.used g (hsub g hg) hu
      unused := fun g hg => by
        rw [hpend, ← hother g fun he => hu (he ▸ hg)]
        exact h.unused g hg
      closed := fun g hg₀ hg => by
        by_cases hgf : g = f
        · exact hgf ▸ hgarbage
        · exact h.closed g hg₀ fun hmem => hg ((List.mem_erase_of_ne hgf).2 hmem)
      rcv := fun so => (h.rcv so).imp_right fun ⟨hr, hfl⟩ => ⟨hr, hfl.mono hsub⟩
      flushes := fun so hso => by
        rcases List.mem_append.1 hso with hso | hso
        · exact ⟨f, hgarbage, h.mem_flushes.1 hso |>.imp_right fun hq => ⟨h.files.not_mem_erase, hq⟩⟩
        · exact (h.flushes so (List.mem_cons_of_mem _ hso)).mono hsub
      flushed := fun so hso => by
        obtain ⟨g, hg, hso⟩ := hso
        by_cases hgf : g = f
        · subst hgf
          exact .inr (List.mem_append_left _ (h.mem_flushes.2 (hso.imp_right And.right)))
        · have hold : Flushable s₀ fds s so := ⟨g, hg, hso.imp_right fun ⟨hclosed, hq⟩ =>
            ⟨fun hmem => hclosed ((List.mem_erase_of_ne hgf).2 hmem), hq⟩⟩
          refine (h.flushed so hold).imp_right fun hmem => List.mem_append_right _ ?_
          simpa using hmem
      stuck := fun S hS g hg => by
        have hgf : g ≠ f := fun he => h.refs_of_stuck hc hS hg (he ▸ hrefs)
        exact (List.mem_erase_of_ne hgf).2 (h.stuck S hS g hg) }

/-- The queue is flushed, and its files are to be discarded. -/
theorem sorflush (hc : Correct s₀ fds) (h : SweepInv s₀ fds s (.sorflush so :: stack)) :
    SweepInv s₀ fds (s.flush so) ((s.socket so).rcv.flatten.map .discard ++ stack) := by
  have hrefs : ∀ f, (s.flush so).refs f + (s.socket so).rcv.flatten.count f = s.refs f := by
    intro f
    refine sum_flush so (h.sockets ▸ hc.sockets) (n := fun rcv => rcv.flatten.count f) rfl fun hso => ?_
    simp only [h.rcv_of_not_mem hc hso, List.count_nil]
  have hpend : ∀ f, pending ((s.socket so).rcv.flatten.map .discard ++ stack) f =
      (s.socket so).rcv.flatten.count f + pending (.sorflush so :: stack) f := by
    intro f
    rw [pending_append, pending_discard, pending_cons_of_ne (a := .sorflush so) rfl]
  have hstack : ∀ so', so' ≠ so → (Act.sorflush so' ∈ (s.socket so).rcv.flatten.map .discard ++ stack ↔
      Act.sorflush so' ∈ .sorflush so :: stack) := by
    intro so' hne
    simp [hne]
  exact
    { kind := h.kind
      sockets := h.sockets
      socket := fun so' => by
        by_cases hso : so' = so
        · subst hso
          simpa [Sys.flush] using h.socket so'
        · rw [flush_ne hso]
          exact h.socket so'
      files := h.files
      sub := h.sub
      counts := fun f hf => by
        have hold := h.counts f hf
        have := hrefs f
        rw [hpend, show ((s.flush so).file f) = s.file f from rfl, hold]
        push_cast
        omega
      gone := fun f hf => by
        obtain ⟨hfds, hzero, hp⟩ := h.gone f hf
        have := hrefs f
        rw [hpend]
        omega
      used := h.used
      unused := fun f hf => by
        have hnot : f ∉ (s.socket so).rcv.flatten := by
          intro hmem
          have := (hc.open_of_pos (.inr (hc.refs_of_queue (h.mem_rcv hmem)))).2
          omega
        rw [hpend, h.unused f hf, List.count_eq_zero.2 hnot]
      closed := h.closed
      rcv := fun so' => by
        by_cases hso : so' = so
        · subst hso
          exact .inr ⟨flush_rcv s so', h.flushes so' List.mem_cons_self⟩
        · rw [flush_ne hso]
          exact h.rcv so'
      flushes := fun so' hso' => by
        by_cases hso : so' = so
        · exact hso ▸ h.flushes so List.mem_cons_self
        · exact h.flushes so' ((hstack so' hso).1 hso')
      flushed := fun so' hso' => by
        by_cases hso : so' = so
        · subst hso
          exact .inl (flush_rcv s so')
        · rw [flush_ne hso]
          exact (h.flushed so' hso').imp_right (hstack so' hso).2
      stuck := h.stuck }

end SweepInv

/-! ## The whole sweep -/

theorem act_sorflush_calls (hc : Correct s₀ fds) (h : SweepInv s₀ fds s stack) (so : Nat) :
    act s (.sorflush so) = some (s.flush so, (s.socket so).rcv.flatten.map .discard) := by
  have hcalls : (if (s.socket so).rights then (s.socket so).rcv.flatten.map Act.discard else []) =
      (s.socket so).rcv.flatten.map .discard := by
    split_ifs with hr
    · rfl
    · by_contra hne
      refine hr (h.sockets_of_rcv hc fun he => hne ?_).2
      rw [he, List.map_nil]
  simp only [act, hcalls]
  rfl

theorem sum_work_discard (l : List Nat) : ((l.map Act.discard).map Act.work).sum = 2 * l.length := by
  induction l with
  | nil => rfl
  | cons f l ih =>
    simp only [List.map_cons, List.sum_cons, List.length_cons, ih, Act.work]
    omega

theorem work_eq (s : Sys) (stack : List Act) :
    work s stack = (stack.map Act.work).sum + work s [] := by
  simp [work, Nat.add_assoc]

theorem flushes_setFile {g : File → File} (hkind : ∀ fp, (g fp).kind = fp.kind) (f' : Nat) :
    (s.setFile f g).flushes f' = s.flushes f' := by
  have hdata : (s.setFile f g).data f' = s.data f' := by
    unfold Sys.data
    by_cases hff : f' = f
    · rw [hff, setFile_same, hkind]
    · rw [setFile_ne hff]
  unfold Sys.flushes
  rw [hdata]
  rfl

theorem work_setFile {g : File → File} (hkind : ∀ fp, (g fp).kind = fp.kind) (stack : List Act) :
    work (s.setFile f g) stack = work s stack := by
  simp only [work, flushes_setFile hkind]
  rfl

theorem work_erase (hf : f ∈ s.filehead) :
    work { s with filehead := s.filehead.erase f } [] + ((s.flushes f).map Act.work).sum = work s [] := by
  have hsum := List.sum_map_erase (fun f' => (s.flushes f').length) hf
  have hflush : ((s.flushes f).map Act.work).sum = (s.flushes f).length := by
    unfold Sys.flushes
    split
    · rfl
    · simp [Function.comp_def, Act.work]
  rw [hflush]
  simp only [work, ← hsum]
  rw [show Sys.flushes { s with filehead := s.filehead.erase f } = s.flushes from rfl]
  omega

theorem work_flush (hc : Correct s₀ fds) (h : SweepInv s₀ fds s stack) (so : Nat) :
    work (s.flush so) [] + 2 * (s.socket so).rcv.flatten.length = work s [] := by
  have hsum := sum_flush (s := s) so (h.sockets ▸ hc.sockets) (n := fun rcv => rcv.flatten.length) rfl
    fun hso => by simp only [h.rcv_of_not_mem hc hso, List.length_nil]
  have hflush : (s.flush so).flushes = s.flushes := by
    funext f
    have hq : ∀ so', ((s.flush so).socket so').q = (s.socket so').q := by
      intro so'
      by_cases hso : so' = so
      · subst hso
        simp [Sys.flush]
      · rw [flush_ne hso]
    simp only [Sys.flushes, hq]
    rfl
  simp only [work, hflush]
  rw [show (s.flush so).sockets = s.sockets from rfl, show (s.flush so).filehead = s.filehead from rfl]
  omega

/-- Each call is made without a panic, and leaves one less to be made. -/
theorem act_inv (hc : Correct s₀ fds) {a : Act} (h : SweepInv s₀ fds s (a :: stack)) :
    ∃ s' calls, act s a = some (s', calls) ∧ SweepInv s₀ fds s' (calls ++ stack) ∧
      work s' (calls ++ stack) + 1 = work s (a :: stack) := by
  cases a with
  | discard f =>
    refine ⟨_, _, rfl, h.discard, ?_⟩
    rw [work_setFile (by intro; rfl), List.singleton_append, work_eq, work_eq s (.discard f :: stack)]
    simp only [List.map_cons, List.sum_cons, Act.work]
    omega
  | closef f =>
    obtain ⟨hf, -, hcount⟩ := h.mem_of_closef
    by_cases hpos : 0 < (s.file f).count - 1
    · refine ⟨_, [], ?_, h.closef_held hpos, ?_⟩
      · simp only [act, setFile_same]
        rw [if_pos hpos]
      · rw [List.nil_append, work_setFile (by intro; rfl), work_eq, work_eq s (.closef f :: stack)]
        simp only [List.map_cons, List.sum_cons, Act.work]
        omega
    · have hzero : (s.file f).count - 1 = 0 := by omega
      refine ⟨_, _, ?_, h.closef_last hc hzero, ?_⟩
      · simp only [act, setFile_same]
        rw [if_neg hpos, if_neg (by omega), flushes_setFile (by intro; rfl)]
        rfl
      · have herase := work_erase hf
        have hset : work { s.setFile f fun fp => { fp with count := fp.count - 1 } with filehead := s.filehead.erase f } [] =
            work { s with filehead := s.filehead.erase f } [] :=
          work_setFile (s := { s with filehead := s.filehead.erase f }) (f := f)
            (g := fun fp => { fp with count := fp.count - 1 }) (fun _ => rfl) []
        rw [work_eq, work_eq s (.closef f :: stack), List.map_append, List.sum_append, hset]
        simp only [List.map_cons, List.sum_cons, Act.work]
        omega
  | sorflush so =>
    refine ⟨_, _, act_sorflush_calls hc h so, h.sorflush hc, ?_⟩
    have := work_flush hc h so
    rw [work_eq, work_eq s (.sorflush so :: stack), List.map_append, List.sum_append, sum_work_discard]
    simp only [List.map_cons, List.sum_cons, Act.work]
    omega

theorem run_inv (hc : Correct s₀ fds) (n : Nat) (hn : work s stack = n) (h : SweepInv s₀ fds s stack) :
    ∃ s', run n s stack = some s' ∧ SweepInv s₀ fds s' [] := by
  induction n generalizing s stack with
  | zero =>
    cases stack with
    | nil => exact ⟨s, rfl, h⟩
    | cons a stack =>
      obtain ⟨_, _, -, -, hwork⟩ := act_inv hc h
      omega
  | succ n ih =>
    cases stack with
    | nil => exact ⟨s, rfl, h⟩
    | cons a stack =>
      obtain ⟨s', calls, hact, h', hwork⟩ := act_inv hc h
      obtain ⟨t, hrun, ht⟩ := ih (by omega) h'
      refine ⟨t, ?_, ht⟩
      rw [run, hact]
      exact hrun

/-! ## From the mark phase to the end -/

/-- The extra reference that is taken. -/
def addRef (s : Sys) (f : Nat) : Sys := s.setFile f fun fp => { fp with count := fp.count + 1 }

theorem foldl_addRef (l : List Nat) (s : Sys) :
    (l.foldl addRef s).filehead = s.filehead ∧ (l.foldl addRef s).sockets = s.sockets ∧
      (l.foldl addRef s).socket = s.socket ∧ ∀ f, ((l.foldl addRef s).file f).kind = (s.file f).kind ∧
        ((l.foldl addRef s).file f).count = (s.file f).count + l.count f := by
  induction l generalizing s with
  | nil => exact ⟨rfl, rfl, rfl, fun f => ⟨rfl, by simp⟩⟩
  | cons g l ih =>
    obtain ⟨hhead, hsockets, hsocket, hfile⟩ := ih (addRef s g)
    refine ⟨hhead, hsockets, hsocket, fun f => ?_⟩
    obtain ⟨hkind, hcount⟩ := hfile f
    rw [List.foldl_cons, hkind, hcount, List.count_cons]
    by_cases hf : f = g
    · subst hf
      simp only [addRef, setFile_same, beq_self_eq_true, if_true, true_and]
      push_cast
      ring
    · simp [addRef, setFile_ne hf, Ne.symm hf]

theorem mem_unref (hc : Correct s₀ fds) : f ∈ unref (markPhase s₀) ↔ Garbage s₀ fds f := by
  obtain ⟨hsame, hmark⟩ := markPhase_spec hc
  obtain ⟨-, hcount, hmsg⟩ := hsame.file f
  simp only [unref, List.mem_filter, decide_eq_true_eq, hsame.filehead, hcount, hmsg]
  constructor
  · rintro ⟨hf, hu, -, hm⟩
    refine ⟨hf, hu, fun hr => ?_⟩
    simp [(hmark f hf).2 hr] at hm
  · rintro ⟨hf, hu, hr⟩
    obtain ⟨hcounts, hmsgs⟩ := hc.counts f hf
    have hfds : fds f = 0 := by
      by_contra hfds
      exact hr (.held (by omega))
    refine ⟨hf, hu, by omega, ?_⟩
    by_contra hm
    exact hr ((hmark f hf).1 (by simpa using hm))

/-- The state and the calls at the start of the sweep. -/
def sweepStart (s₀ : Sys) : Sys := (unref (markPhase s₀)).foldl addRef (markPhase s₀)

def sweepCalls (s₀ : Sys) : List Act :=
  (unref (markPhase s₀)).flatMap (flushData (sweepStart s₀)) ++ (unref (markPhase s₀)).map .closef

theorem unpGc_eq (s₀ : Sys) :
    unpGc s₀ = (run (work (sweepStart s₀) (sweepCalls s₀)) (sweepStart s₀) (sweepCalls s₀)).map fun s =>
      (s, unref (markPhase s₀)) := rfl

theorem mem_flushData : .sorflush so ∈ flushData s f ↔ s.data f = some so := by
  unfold flushData
  cases s.data f with
  | none => simp
  | some so' => simp [eq_comm]

theorem pending_sweepCalls (s₀ : Sys) (f : Nat) : pending (sweepCalls s₀) f = (unref (markPhase s₀)).count f := by
  have hflush : pending ((unref (markPhase s₀)).flatMap (flushData (sweepStart s₀))) f = 0 := by
    refine List.countP_eq_zero.2 fun a ha => ?_
    obtain ⟨g, -, ha⟩ := List.mem_flatMap.1 ha
    unfold flushData at ha
    split at ha
    · cases ha
    · rw [List.mem_singleton.1 ha]
      exact Bool.false_ne_true
  rw [sweepCalls, pending_append, hflush, Nat.zero_add, pending, List.countP_map]
  exact List.countP_congr fun g _ => by simp [Act.drops]

theorem SweepInv.init (hc : Correct s₀ fds) : SweepInv s₀ fds (sweepStart s₀) (sweepCalls s₀) := by
  obtain ⟨hsame, -⟩ := markPhase_spec hc
  obtain ⟨hhead, hsockets, hsocket, hfile⟩ := foldl_addRef (unref (markPhase s₀)) (markPhase s₀)
  have hhead : (sweepStart s₀).filehead = s₀.filehead := hhead.trans hsame.filehead
  have hsockets : (sweepStart s₀).sockets = s₀.sockets := hsockets.trans hsame.sockets
  have hsocket : (sweepStart s₀).socket = s₀.socket := hsocket.trans hsame.socket
  have hkind : ∀ f, ((sweepStart s₀).file f).kind = (s₀.file f).kind := fun f => (hfile f).1.trans (hsame.file f).1
  have hcount : ∀ f, ((sweepStart s₀).file f).count = (s₀.file f).count + (unref (markPhase s₀)).count f := by
    intro f
    rw [sweepStart, (hfile f).2, (hsame.file f).2.1]
  have hdata : ∀ f, (sweepStart s₀).data f = s₀.data f := by
    intro f
    rw [Sys.data, hkind]
    rfl
  have hrefs : ∀ f, (sweepStart s₀).refs f = s₀.refs f := by
    intro f
    rw [Sys.refs, hsockets, hsocket]
    rfl
  have hflush : ∀ so, Act.sorflush so ∈ sweepCalls s₀ ↔ ∃ f, Garbage s₀ fds f ∧ s₀.data f = some so := by
    intro so
    simp [sweepCalls, mem_unref hc, mem_flushData, hdata]
  have hunused : ∀ f, ¬Garbage s₀ fds f → pending (sweepCalls s₀) f = 0 := by
    intro f hf
    rw [pending_sweepCalls]
    exact List.count_eq_zero.2 fun hmem => hf ((mem_unref hc).1 hmem)
  exact
    { kind := hkind
      sockets := hsockets
      socket := fun so => by
        rw [hsocket]
        exact ⟨rfl, rfl⟩
      files := hhead ▸ hc.files
      sub := fun f hf => hhead ▸ hf
      counts := fun f hf => by
        rw [hhead] at hf
        rw [hcount, hrefs, pending_sweepCalls, (hc.counts f hf).1]
      gone := fun f hf => by
        rw [hhead] at hf
        rw [hrefs]
        exact ⟨(hc.gone f hf).1, (hc.gone f hf).2, hunused f fun hg => hf hg.mem⟩
      used := fun f hf hu => by
        rw [hhead] at hf
        have := (hc.counts f hf).1
        rw [hcount]
        omega
      unused := fun f hf => hunused f fun hg => hg.used hf
      closed := fun f hf hclosed => absurd (hhead ▸ hf) hclosed
      rcv := fun so => .inl (by rw [hsocket])
      flushes := fun so hso => by
        obtain ⟨f, hf, hd⟩ := (hflush so).1 hso
        exact ⟨f, hf, .inl hd⟩
      flushed := fun so hso => by
        obtain ⟨f, hf, hd | ⟨hclosed, -⟩⟩ := hso
        · exact .inr ((hflush so).2 ⟨f, hf, hd⟩)
        · exact absurd (hhead ▸ hf.mem) hclosed
      stuck := fun S hS g hg => by
        rw [hhead]
        exact (hS g hg).1 }

theorem unpGc_spec (hc : Correct s₀ fds) :
    ∃ s', unpGc s₀ = some (s', unref (markPhase s₀)) ∧ SweepInv s₀ fds s' [] := by
  obtain ⟨s', hrun, h⟩ := run_inv hc _ rfl (.init hc)
  exact ⟨s', by rw [unpGc_eq, hrun]; rfl, h⟩

/-! ## What is discarded -/

/-- A file that stays open although it is garbage is in a message to a connection that
waits on another such file. -/
theorem SweepInv.waiting_of_open (hc : Correct s₀ fds)
    (hacc : ∀ f g, ReachRcv s₀ fds f → s₀.Waiting f g → ReachRcv s₀ fds g) (h : SweepInv s₀ fds s [])
    (hg : Garbage s₀ fds g) (hopen : g ∈ s.filehead) : ∃ f, Garbage s₀ fds f ∧ f ∈ s.filehead ∧ s₀.Waiting f g := by
  have hfds : fds g = 0 := by
    by_contra hfds
    exact hg.unreached (.held (by omega))
  have hrefs : s.refs g ≠ 0 := by
    have hcount := h.counts g hopen
    have hpos := h.used g hopen hg.used
    simp only [pending, List.countP_nil] at hcount
    omega
  obtain ⟨so, -, hmem⟩ := exists_queue_of_refs hrefs
  have hkept : ¬Flushable s₀ fds s so := by
    intro hfl
    rcases h.flushed so hfl with he | he
    · simp [he] at hmem
    · cases he
  obtain ⟨-, -, f, hf, hu, hq⟩ := hc.queues so (List.ne_nil_of_mem (h.mem_rcv hmem))
  rcases hq with hd | ⟨head, hd, hq⟩
  · by_cases hr : ReachRcv s₀ fds f
    · exact absurd (.queued hr ⟨so, hd, h.mem_rcv hmem⟩) hg.unreached
    · exact absurd ⟨f, ⟨hf, hu, hr⟩, .inl hd⟩ hkept
  · have hwait : s₀.Waiting f g := ⟨head, hd, so, hq, h.mem_rcv hmem⟩
    have hgf : Garbage s₀ fds f := ⟨hf, hu, fun hr => hg.unreached (hacc f g hr hwait)⟩
    refine ⟨f, hgf, ?_, hwait⟩
    by_contra hclosed
    exact hkept ⟨f, hgf, .inr ⟨hclosed, head, hd, hq⟩⟩

theorem ReachRcv.reach (h : ReachRcv s₀ fds f) : Reach s₀ fds f := by
  induction h with
  | held hpos => exact .held hpos
  | queued _ hq ih => exact .queued ih hq

theorem Reach.reachRcv (hacc : ∀ f g, ReachRcv s₀ fds f → s₀.Waiting f g → ReachRcv s₀ fds g) (h : Reach s₀ fds f) :
    ReachRcv s₀ fds f := by
  induction h with
  | held hpos => exact .held hpos
  | queued _ hq ih => exact .queued ih hq
  | waiting _ hw ih => exact hacc _ _ ih hw

theorem SweepInv.discards (hc : Correct s₀ fds) (h : SweepInv s₀ fds s []) (hcond : Cond s₀ fds) :
    Discards s₀ fds s (unref (markPhase s₀)) := by
  refine ⟨fun f hf => ?_, fun f hf hu hr => ?_, fun f hf hu hr hopen => ?_⟩
  · have hg := (mem_unref hc).1 hf
    cases hk : (s₀.file f).kind with
    | vnode => exact absurd (hcond.vnodes f hg.mem hg.used hk) hg.unreached
    | socket so => exact ⟨so, rfl⟩
  · have hr := hr.reachRcv hcond.accepted
    refine ⟨?_, fun hmem => ((mem_unref hc).1 hmem).unreached hr, fun so hd => ?_⟩
    · by_contra hclosed
      exact (h.closed f hf hclosed).unreached hr
    · rcases h.rcv so with hrcv | ⟨-, hfl⟩
      · obtain ⟨hrights, hq⟩ := h.socket so
        cases hs : s.socket so
        cases hs₀ : s₀.socket so
        simp_all
      · exact absurd hd (hfl.not_reach hc hr)
  · have hstuck := hcond.cycles {g | Garbage s₀ fds g ∧ g ∈ s.filehead} fun g ⟨hg, hopen⟩ => by
      obtain ⟨f', hf', hopen', hw⟩ := h.waiting_of_open hc hcond.accepted hg hopen
      exact ⟨hg.mem, hg.unreached, f', ⟨hf', hopen'⟩, hw⟩
    exact Set.eq_empty_iff_forall_notMem.1 hstuck f ⟨⟨hf, hu, fun hr' => hr hr'.reach⟩, hopen⟩

theorem Sys.Waiting.isOpen (hc : Correct s₀ fds) (h : s₀.Waiting f g) : g ∈ s₀.filehead ∧ 0 < (s₀.file g).count := by
  obtain ⟨-, -, so, -, hmem⟩ := h
  exact hc.open_of_pos (.inr (hc.refs_of_queue hmem))

theorem SweepInv.cond (hc : Correct s₀ fds) (h : SweepInv s₀ fds s []) (hd : Discards s₀ fds s (unref (markPhase s₀))) :
    Cond s₀ fds := by
  have hacc : ∀ f g, ReachRcv s₀ fds f → s₀.Waiting f g → ReachRcv s₀ fds g := by
    intro f g hr hw
    by_contra hg
    obtain ⟨hopen, hpos⟩ := hw.isOpen hc
    exact (hd.keeps g hopen (by omega) (.waiting hr.reach hw)).2.1 ((mem_unref hc).2 ⟨hopen, by omega, hg⟩)
  refine ⟨hacc, fun f hf hu hk => ?_, fun S hS => Set.eq_empty_iff_forall_notMem.2 fun g hg => ?_⟩
  · by_contra hr
    obtain ⟨so, hso⟩ := hd.sockets f ((mem_unref hc).2 ⟨hf, hu, hr⟩)
    rw [hk] at hso
    cases hso
  · obtain ⟨hopen, hr, f, hf, hw⟩ := hS g hg
    have hpos := (hw.isOpen hc).2
    exact hd.closes g hopen (by omega) (fun hr' => hr (hr'.reachRcv hacc)) (h.stuck S hS g hg)

/-- `unp_gc` always ends, and discards exactly the files from which no process can obtain
a descriptor just when `Cond` holds. -/
theorem unp_gc_exact (hc : Correct s₀ fds) :
    (∃ s' flushed, unpGc s₀ = some (s', flushed) ∧ Discards s₀ fds s' flushed) ↔ Cond s₀ fds := by
  obtain ⟨s', hgc, h⟩ := unpGc_spec hc
  constructor
  · rintro ⟨t, flushed, hgc', hd⟩
    rw [hgc, Option.some.injEq, Prod.mk.injEq] at hgc'
    obtain ⟨rfl, rfl⟩ := hgc'
    exact h.cond hc hd
  · exact fun hcond => ⟨s', _, hgc, h.discards hc hcond⟩

/-! ## Two systems -/

/-- A socket with a descriptor, on which a connection with a message waits; the file in
the message has a descriptor too. Two more sockets are in each other's queue. -/
def sampleSys : Sys where
  filehead := [0, 1, 2, 3]
  file f :=
    { kind := if f = 3 then .vnode else .socket (some f), count := if f = 3 then 2 else 1
      msgcount := if f = 0 then 0 else 1, mark := false, defer := false }
  sockets := [0, 1, 2, 4]
  socket so :=
    { rights := true
      rcv := if so = 1 then [[2]] else if so = 2 then [[1]] else if so = 4 then [[3]] else []
      q := if so = 0 then [4] else [] }
  unpDefer := 0

def sampleFds (f : Nat) : Nat := if f = 0 ∨ f = 3 then 1 else 0

theorem sampleSys_correct : Correct sampleSys sampleFds where
  files := by decide
  sockets := by decide
  counts := by decide
  gone f hf := by
    simp [sampleSys, sampleFds, Sys.refs, List.count_cons] at hf ⊢
    omega
  queues so hso := by
    simp only [sampleSys] at hso
    split_ifs at hso with h₁ h₂ h₄
    · exact h₁ ▸ ⟨by decide, rfl, 1, by decide, by decide, .inl rfl⟩
    · exact h₂ ▸ ⟨by decide, rfl, 2, by decide, by decide, .inl rfl⟩
    · exact h₄ ▸ ⟨by decide, rfl, 0, by decide, by decide, .inr ⟨0, rfl, by decide⟩⟩
    · simp at hso
  owner := by decide
  accept := by decide
  nosocket := by decide

theorem sampleSys_waiting (h : sampleSys.Waiting f g) : g = 3 := by
  obtain ⟨head, -, so, hso, hg⟩ := h
  simp only [sampleSys] at hso hg
  split_ifs at hso with hhead
  · rw [List.mem_singleton.1 hso] at hg
    simpa using hg
  · cases hso

theorem sampleSys_cond : Cond sampleSys sampleFds where
  accepted f g _ hw := .held (sampleSys_waiting hw ▸ by decide)
  vnodes f hf _ hk := .held (by revert f; decide)
  cycles S hS := by
    refine Set.eq_empty_iff_forall_notMem.2 fun g hg => ?_
    obtain ⟨-, hr, f, -, hw⟩ := hS g hg
    exact hr (.held (sampleSys_waiting hw ▸ by decide))

theorem unp_gc_exact_sample :
    Correct sampleSys sampleFds ∧
      ∃ s' flushed, unpGc sampleSys = some (s', flushed) ∧ Discards sampleSys sampleFds s' flushed :=
  ⟨sampleSys_correct, (unp_gc_exact sampleSys_correct).2 sampleSys_cond⟩

/-- A socket with a descriptor, on which a connection waits that was sent a socket with
a vnode in its queue. -/
def acceptSys : Sys where
  filehead := [0, 1, 2]
  file f :=
    { kind := if f = 2 then .vnode else .socket (some f), count := 1
      msgcount := if f = 0 then 0 else 1, mark := false, defer := false }
  sockets := [0, 1, 3]
  socket so :=
    { rights := true
      rcv := if so = 1 then [[2]] else if so = 3 then [[1]] else []
      q := if so = 0 then [3] else [] }
  unpDefer := 0

def acceptFds (f : Nat) : Nat := if f = 0 then 1 else 0

/-- Both files can be received, and `unp_gc` flushes the socket and the vnode. -/
theorem unp_gc_takes_accepted :
    Correct acceptSys acceptFds ∧ Reach acceptSys acceptFds 1 ∧ (acceptSys.file 2).kind = .vnode ∧
      (unpGc acceptSys).map Prod.snd = some [1, 2] ∧
      ¬∃ s' flushed, unpGc acceptSys = some (s', flushed) ∧ Discards acceptSys acceptFds s' flushed := by
  have hcorrect : Correct acceptSys acceptFds := by
    refine ⟨by decide, by decide, by decide, fun f hf => ?_, fun so hso => ?_, by decide, by decide, by decide⟩
    · simp [acceptSys, acceptFds, Sys.refs, List.count_cons] at hf ⊢
      omega
    · simp only [acceptSys] at hso
      split_ifs at hso with h₁ h₃
      · exact h₁ ▸ ⟨by decide, rfl, 1, by decide, by decide, .inl rfl⟩
      · exact h₃ ▸ ⟨by decide, rfl, 0, by decide, by decide, .inr ⟨0, rfl, by decide⟩⟩
      · simp at hso
  have hreach : Reach acceptSys acceptFds 1 := .waiting (.held (f := 0) (by decide)) ⟨0, rfl, 3, by decide, by decide⟩
  have hgc : (unpGc acceptSys).map Prod.snd = some [1, 2] := by decide
  refine ⟨hcorrect, hreach, rfl, hgc, ?_⟩
  rintro ⟨s', flushed, hrun, hd⟩
  rw [hrun, Option.map_some, Option.some.injEq] at hgc
  have hnot := (hd.keeps 1 (by decide) (by decide) hreach).2.1
  rw [show flushed = [1, 2] from hgc] at hnot
  exact hnot (by decide)

end BsdKernel.Unp
