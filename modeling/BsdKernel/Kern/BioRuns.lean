import BsdKernel.Kern.BioOps
/-!
# Runs of the buffer cache

From `bufinit` on every step keeps the invariant. A block has one buffer exactly in the runs in
which no process hashes a buffer for a block that has got one while it slept in `allocbuf`
(`block_runs`). The lists and the space are in order in every run, and the delayed writes in every
run that does not shrink one (`buffer_runs`).
-/

namespace BsdKernel.Bio

open BsdKernel.Lib

variable {P : Type} [DecidableEq P] {nbuf : Nat}

namespace Cache

variable {s : Cache P nbuf} {space : Int}

omit [DecidableEq P] in
theorem Inv.bufinit : (Cache.bufinit space : Cache P nbuf).Inv space := by
  have hempty : ∀ b, b ∈ (Cache.bufinit space : Cache P nbuf).bfreelist .EMPTY := List.mem_finRange
  have hone : ∀ b q, b ∈ (Cache.bufinit space : Cache P nbuf).bfreelist q → q = .EMPTY := by
    intro b q hq
    cases q with
    | EMPTY => rfl
    | AGE => exact nomatch hq
    | LRU => exact nomatch hq
  refine ⟨fun b => ?_, fun _ => trivial, fun q => ?_, ?_, ?_⟩
  · refine ⟨⟨nofun, fun _ => rfl, nofun, nofun, nofun, rfl, rfl, fun _ _ => rfl⟩, nofun, fun _ => ⟨.EMPTY, hempty b, hone b⟩,
      fun _ => ⟨rfl, rfl⟩, nofun, nofun, nofun⟩
  · cases q with
    | EMPTY => exact List.nodup_finRange nbuf
    | AGE => exact List.nodup_nil
    | LRU => exact List.nodup_nil
  · simp [Cache.bufinit]
  · simp [Cache.bufinit]

omit [DecidableEq P] in
theorem Unique.bufinit : (Cache.bufinit space : Cache P nbuf).Unique := nofun

namespace Inv
variable (hI : s.Inv space)
include hI

omit [DecidableEq P] in
theorem oneEach (hu : s.Unique) : s.OneEach := by
  refine ⟨hu, fun b hb => ?_⟩
  obtain ⟨h, hh⟩ := (hI.buf b).ok.busy hb
  refine ⟨h, hh, fun hio => ((hI.buf b).ok.io ?_).1⟩
  rw [hh, hio]
  exact List.mem_singleton.2 rfl

omit [DecidableEq P] in
theorem disciplined : s.Disciplined space := by
  refine ⟨hI.nodup, fun b => (hI.buf b).held, fun b => (hI.buf b).listed, hI.total, ?_⟩
  rw [hI.alloc, Finset.sum_filter]
  apply Finset.sum_congr rfl
  intro b _
  have hsize := (hI.buf b).ok.size
  cases ha : (s.buf b).addr with
  | some d => rfl
  | none =>
    rw [ha] at hsize
    rw [← hsize]
    rfl

omit [DecidableEq P] in
theorem kept (hk : ∀ b, (s.buf b).Keeps) : s.Kept := by
  intro b vp n d ho
  obtain ⟨h₁, h₂, h₃, h₄, h₅⟩ := hk b vp n d ho
  exact ⟨h₄ ▸ (hI.buf b).hash h₂ vp h₃, h₂, h₃, h₄, h₁, h₅⟩

end Inv

instance (c : Call nbuf) : Decidable (Entry c) :=
  match c with
  | .ahead _ _ _ _ _ => isFalse id
  | .getblk _ _ _ | .bread _ _ _ | .breada _ _ _ _ | .geteblk _ => isTrue trivial

instance (pc : Pc nbuf) : Decidable (∀ chan c, pc ≠ .sleep chan c) :=
  match pc with
  | .sleep chan c => isFalse fun h => h chan c rfl
  | .user | .run _ | .alloc _ _ _ | .biowait _ _ => isTrue (by simp)

instance (s : Cache P nbuf) : (op : Op P nbuf) → Decidable (s.Allowed op)
  | .call p c _ _ => inferInstanceAs (Decidable (s.pc p = .user ∧ Entry c))
  | .resume p _ _ => inferInstanceAs (Decidable (∀ chan c, s.pc p ≠ .sleep chan c))
  | .brelse p b | .bwrite p b | .bdwrite p b | .bawrite p b | .invalidate p b | .store p b _ =>
    inferInstanceAs (Decidable (s.pc p = .user ∧ .proc p ∈ (s.buf b).holders))
  | .biodone b _ _ => inferInstanceAs (Decidable ((s.buf b).active = true))

instance (k : Vnode × Int) : Decidable (s.Cached k) :=
  inferInstanceAs (Decidable (∃ b, (s.buf b).flags.inval = false ∧ (s.buf b).vp = some k.1 ∧ (s.buf b).lblkno = k.2))

instance (s : Cache P nbuf) (op : Op P nbuf) : Decidable (s.Alone op) := by
  unfold Alone
  split
  · split <;> infer_instance
  · infer_instance

instance (s : Cache P nbuf) (op : Op P nbuf) : Decidable (s.Sized op) := by
  unfold Sized
  split
  · split <;> infer_instance
  · infer_instance

end Cache

/-- A condition on the states that are reached without a panic. -/
instance (ok : Cache P nbuf → Op P nbuf → Prop) [∀ s op, Decidable (ok s op)] (t : Except String (Cache P nbuf)) (op : Op P nbuf) :
    Decidable (∀ s, t = .ok s → ok s op) :=
  match t with
  | .error _ => isTrue fun _ h => by cases h
  | .ok s => decidable_of_iff (ok s op) ⟨fun h _ he => Except.ok.inj he ▸ h, fun h => h s rfl⟩

instance (t : Except String (Cache P nbuf)) (op : Op P nbuf) : Decidable (Allowed t op) :=
  inferInstanceAs (Decidable (∀ s, t = .ok s → s.Allowed op))

instance (t : Except String (Cache P nbuf)) (op : Op P nbuf) : Decidable (Alone t op) :=
  inferInstanceAs (Decidable (∀ s, t = .ok s → s.Alone op))

instance (t : Except String (Cache P nbuf)) (op : Op P nbuf) : Decidable (Sized t op) :=
  inferInstanceAs (Decidable (∀ s, t = .ok s → s.Sized op))

/-- In a run from `bufinit` every block has one buffer and every busy buffer one holder, if and only if no
process hashes a new buffer for a block that has a valid one by then. -/
theorem block_runs (space : Int) (ops : List (Op P nbuf)) (hal : Along step Allowed (.ok (Cache.bufinit space)) ops) :
    (∀ t ∈ states step (.ok (Cache.bufinit space)) ops, ∃ s, t = .ok s ∧ s.OneEach) ↔
      Along step Alone (.ok (Cache.bufinit space)) ops := by
  refine states_iff_along (I := fun t => ∃ s, t = .ok s ∧ s.Inv space ∧ s.Unique) (P := fun t => ∃ s, t = .ok s ∧ s.OneEach)
    ?_ ?_ ?_ ⟨_, rfl, Cache.Inv.bufinit, Cache.Unique.bufinit⟩ hal
  · rintro _ op ⟨s, rfl, hI, hu⟩ hal hone
    obtain ⟨t, ht, hinv, -, huniq, -⟩ := hI.step (hal s rfl)
    exact ⟨t, ht, hinv, huniq (hone s rfl) hu⟩
  · rintro _ ⟨s, rfl, hI, hu⟩
    exact ⟨s, rfl, hI.oneEach hu⟩
  · rintro _ op ⟨s, rfl, hI, hu⟩ hal hn ⟨t, ht, hone⟩
    obtain ⟨t', ht', -, -, -, hbad⟩ := hI.step (hal s rfl)
    obtain rfl : t' = t := Except.ok.inj (ht'.symm.trans ht)
    exact hbad (fun h => hn fun s' he => Except.ok.inj he ▸ h) hone.unique

/-- One process reads a block and writes it late, another waits for it and reads the next one ahead. -/
theorem block_runs_two :
    ∃ s, final step (.ok (Cache.bufinit 100 : Cache Nat 2)) [.call 0 (.bread 1 0 8) [true] (fun _ => 0),
      .call 1 (.getblk 1 0 8) [] (fun _ => 0), .biodone 0 none (fun _ => 7), .resume 0 [] (fun _ => 0), .bdwrite 0 0,
      .resume 1 [] (fun _ => 0), .brelse 1 0, .call 1 (.breada 1 0 8 1) [] (fun _ => 0), .resume 1 [true] (fun _ => 0),
      .biodone 1 none (fun _ => 3), .brelse 1 0] = .ok s ∧ s.OneEach :=
  (block_runs 100 _ (by decide +kernel)).2 (by decide +kernel) _ (final_mem_states _ _ _)

/-- Two processes look for the same block; both find buffers of another size to recycle, and sleep. -/
theorem block_twice :
    ¬∀ (space : Int) (ops : List (Op Nat 2)), Along step Allowed (.ok (Cache.bufinit space)) ops →
      ∀ t ∈ states step (.ok (Cache.bufinit space)) ops, ∃ s, t = .ok s ∧ s.OneEach := by
  intro h
  have hlast := h 100 [.call 0 (.getblk 1 0 8) [true] (fun _ => 0), .brelse 0 0, .call 0 (.getblk 1 1 8) [true] (fun _ => 0), .brelse 0 1,
    .call 0 (.getblk 2 0 16) [] (fun _ => 0), .call 1 (.getblk 2 0 16) [] (fun _ => 0), .resume 0 [] (fun _ => 0),
    .resume 1 [] (fun _ => 0)] (by decide +kernel) _ (final_mem_states _ _ _)
  obtain ⟨s, hs, hone⟩ := hlast
  obtain rfl := Except.ok.inj hs
  exact absurd (hone.unique 0 1) (by decide +kernel)

/-- In a run from `bufinit` the lists and the space are in order, and while it shrinks no delayed write each
delayed write is in its block's buffer, marked for writing. -/
theorem buffer_runs (space : Int) (ops : List (Op P nbuf)) (hal : Along step Allowed (.ok (Cache.bufinit space)) ops) :
    ∀ t ∈ states step (.ok (Cache.bufinit space)) ops, ∃ s, t = .ok s ∧ s.Disciplined space ∧
      (Along step Sized (.ok (Cache.bufinit space)) ops → s.Kept) := by
  intro t ht
  have hstep : ∀ (t : Except String (Cache P nbuf)) op, (∃ s, t = .ok s ∧ s.Inv space) → Allowed t op →
      ∃ s, step t op = .ok s ∧ s.Inv space := by
    rintro _ op ⟨s, rfl, hI⟩ hal
    obtain ⟨t, ht, hinv, -⟩ := hI.step (hal s rfl)
    exact ⟨t, ht, hinv⟩
  obtain ⟨s, rfl, hI⟩ := states_of_along hstep ⟨_, rfl, Cache.Inv.bufinit⟩ hal t ht
  refine ⟨s, rfl, hI.disciplined, fun hsized => ?_⟩
  have hstep' : ∀ (t : Except String (Cache P nbuf)) op, (∃ s, t = .ok s ∧ s.Inv space ∧ ∀ b, (s.buf b).Keeps) →
      (Allowed t op ∧ Sized t op) → ∃ s, step t op = .ok s ∧ s.Inv space ∧ ∀ b, (s.buf b).Keeps := by
    rintro _ op ⟨s, rfl, hI, hk⟩ ⟨hal, hsz⟩
    obtain ⟨t, ht, hinv, hkeep, -⟩ := hI.step (hal s rfl)
    exact ⟨t, ht, hinv, hkeep (hsz s rfl) hk⟩
  have hboth := (along_and step Allowed Sized _ ops).2 ⟨hal, hsized⟩
  obtain ⟨s', he, -, hk⟩ := states_of_along hstep' ⟨_, rfl, Cache.Inv.bufinit, fun _ => nofun⟩ hboth _ ht
  obtain rfl := Except.ok.inj he
  exact hI.kept hk

/-- A delayed write is recycled: it goes to the driver first. -/
def recycled : List (Op Nat 2) :=
  [.call 0 (.getblk 1 0 8) [true] (fun _ => 0), .store 0 0 (fun _ => 9), .bdwrite 0 0,
    .call 0 (.getblk 1 1 8) [true] (fun _ => 0), .brelse 0 1, .call 0 (.getblk 1 2 16) [] (fun _ => 0),
    .biodone 0 none (fun _ => 0), .resume 0 [] (fun _ => 0), .brelse 0 1]

theorem buffer_runs_two :
    ∃ s, final step (.ok (Cache.bufinit 100)) recycled = .ok s ∧ s.Disciplined 100 ∧ s.Kept := by
  obtain ⟨s, hs, hd, hk⟩ := buffer_runs 100 recycled (by decide +kernel) _ (final_mem_states _ _ _)
  exact ⟨s, hs, hd, hk (by decide +kernel)⟩

/-- The holder of a delayed write asks for the block in a smaller size, and its end is lost. -/
theorem shrunk_write :
    ¬∀ (space : Int) (ops : List (Op Nat 2)), Along step Allowed (.ok (Cache.bufinit space)) ops →
      ∀ t ∈ states step (.ok (Cache.bufinit space)) ops, ∃ s, t = .ok s ∧ s.Disciplined space ∧ s.Kept := by
  intro h
  have hlast := h 100 [.call 0 (.getblk 1 0 8) [true] (fun _ => 0), .store 0 0 (fun _ => 9), .bdwrite 0 0,
    .call 0 (.getblk 1 0 4) [] (fun _ => 0), .resume 0 [] (fun _ => 0)] (by decide +kernel) _ (final_mem_states _ _ _)
  obtain ⟨s, hs, -, hk⟩ := hlast
  obtain rfl := Except.ok.inj hs
  have hlost := (hk 0 1 0 [9, 9, 9, 9, 9, 9, 9, 9] (by decide +kernel)).2.2.2.2.2
  exact absurd hlost (by decide +kernel)

end BsdKernel.Bio
