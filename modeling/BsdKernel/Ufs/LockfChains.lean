import BsdKernel.Ufs.LockfRanges
import Mathlib.Data.Multiset.Basic
/-!
# The chains of a lock list

`edges` are the pairs of a lock and a request on its `lf_block` chain. A walk of
`lf_setlock` or `lf_clearlock` moves no request to another lock: it wakes up the
requests of some chains and leaves the others (`Moves`), unless `lf_setlock`
replaces a lock that has requests by the new one (`Swallows`).
-/

namespace BsdKernel.Advlock

variable {l Y l' : List Lockf} {woken woken' : List Nat} {fresh n : Nat} {unlock : Lockf}

/-- The lock at `a` has the request `w` on its chain. -/
def edges (l : List Lockf) : Multiset (Nat × Nat) := (l.map fun lf => (lf.block.map (lf.addr, ·) : Multiset _)).sum

def addrs (l : List Lockf) : Multiset Nat := (l.map (·.addr) : Multiset Nat)

@[simp] theorem edges_nil : edges [] = 0 := rfl

@[simp] theorem edges_cons (lf : Lockf) (l : List Lockf) :
    edges (lf :: l) = (lf.block.map (lf.addr, ·) : Multiset _) + edges l := rfl

@[simp] theorem edges_append (l l' : List Lockf) : edges (l ++ l') = edges l + edges l' := by
  simp [edges]

@[simp] theorem addrs_nil : addrs [] = 0 := rfl

@[simp] theorem addrs_cons (lf : Lockf) (l : List Lockf) : addrs (lf :: l) = {lf.addr} + addrs l := rfl

@[simp] theorem addrs_append (l l' : List Lockf) : addrs (l ++ l') = addrs l + addrs l' := by
  simp [addrs]

theorem mem_edges {a w : Nat} : (a, w) ∈ edges l ↔ ∃ lf ∈ l, lf.addr = a ∧ w ∈ lf.block := by
  induction l with
  | nil => simp
  | cons lf l ih =>
    rw [edges_cons, Multiset.mem_add, ih, List.exists_mem_cons_iff]
    simp [and_comm]

/-- `l` becomes `l'` by waking up the requests `woken` and no others, and of its
locks and the `new` ones some are freed. -/
def Moves (l l' : List Lockf) (woken : List Nat) (new : Multiset Nat) : Prop :=
  (∃ gone, edges l' + gone = edges l ∧ gone.map Prod.snd = (woken : Multiset Nat)) ∧
    ∃ freed, addrs l' + freed = addrs l + new

theorem Moves.refl (l : List Lockf) (new : Multiset Nat) : Moves l l [] new := ⟨⟨0, by simp⟩, new, rfl⟩

theorem Moves.middle {X : List Lockf} {new : Multiset Nat} (front rest : List Lockf) (h : Moves X Y woken new) :
    Moves (front ++ (X ++ rest)) (front ++ (Y ++ rest)) woken new := by
  obtain ⟨⟨gone, hg, hw⟩, freed, hf⟩ := h
  refine ⟨⟨gone, ?_, hw⟩, freed, ?_⟩
  · simp only [edges_append, ← hg]
    abel
  · simp only [addrs_append]
    rw [show addrs front + (addrs X + addrs rest) + new = addrs front + (addrs X + new) + addrs rest by abel, ← hf]
    abel

theorem Moves.append {X rest rest' : List Lockf} {new new' : Multiset Nat} (h : Moves X Y woken new)
    (h' : Moves rest rest' woken' new') : Moves (X ++ rest) (Y ++ rest') (woken ++ woken') (new + new') := by
  obtain ⟨⟨gone, hg, hw⟩, freed, hf⟩ := h
  obtain ⟨⟨gone', hg', hw'⟩, freed', hf'⟩ := h'
  refine ⟨⟨gone + gone', ?_, by simp [hw, hw']⟩, freed + freed', ?_⟩
  · simp only [edges_append, ← hg, ← hg']
    abel
  · simp only [addrs_append]
    rw [show addrs X + addrs rest + (new + new') = (addrs X + new) + (addrs rest + new') by abel, ← hf, ← hf']
    abel

/-- A lock loses its chain, and may change or be freed. -/
theorem Moves.wake_singleton {overlap : Lockf} {new : Multiset Nat} (he : edges Y = 0)
    (hf : ∃ freed, addrs Y + freed = {overlap.addr} + new) : Moves [overlap] Y overlap.block new := by
  refine ⟨⟨edges [overlap], by rw [he, zero_add], ?_⟩, by simpa using hf⟩
  simp [Function.comp_def]

/-! ## Setting a lock -/

/-- The walk of `lf_setlock` gives the chain of one lock to another. -/
def Swallows (lock lf : Lockf) : Prop :=
  lf.id = lock.id ∧ overlapCase lf lock = .contained ∧ lf.block ≠ [] ∧ ¬(lock.type = .RDLCK ∧ lf.type = .WRLCK)

theorem setLoop_linked_moves {c : Cursor} {lock : Lockf} {rest : List Lockf} (h : LinkedAt c lock rest)
    (hs : ∀ lf ∈ rest, ¬Swallows lock lf) (he : setLoop fresh n c lock woken rest = some (l', woken')) :
    ∃ rest' woken'', l' = c.list lock rest' ∧ woken' = woken ++ woken'' ∧ Moves rest rest' woken'' 0 := by
  induction n generalizing c woken rest with
  | zero => cases he
  | succ n ih =>
    obtain ⟨before, frm, rfl, hnew, hturn⟩ := h.turn fresh n woken
    have hlist : ∀ frm, (⟨c.front, c.mid ++ before, true⟩ : Cursor).list lock frm = c.list lock (before ++ frm) := by
      simp [Cursor.list]
    rcases hturn with ⟨ht, -⟩ | ⟨overlap, rest', rfl, hid, ⟨hov, ht⟩ | ⟨hov, ht⟩⟩
    · rw [ht] at he
      obtain ⟨rfl, rfl⟩ := Prod.mk.inj (Option.some.inj he)
      exact ⟨before ++ frm, [], hlist frm, by simp, Moves.refl _ 0⟩
    · have hrest : ∀ lf ∈ rest', ¬Swallows lock lf := fun lf hlf => hs lf (by simp [hlf])
      -- the chain of the lock that is dropped is woken up, or empty
      have hgo : ∃ woken₁, Moves [overlap] [] woken₁ 0 ∧
          setLoop fresh (n + 1) c lock woken (before ++ overlap :: rest') =
            setLoop fresh n ⟨c.front, c.mid ++ before, true⟩ lock (woken ++ woken₁) rest' := by
        by_cases hd : lock.type = .RDLCK ∧ overlap.type = .WRLCK
        · exact ⟨overlap.block, Moves.wake_singleton rfl ⟨{overlap.addr}, by simp⟩, by rw [ht, if_pos hd]⟩
        · have hempty : overlap.block = [] := by
            by_contra hne
            exact hs overlap (by simp) ⟨hid, hov, hne, hd⟩
          refine ⟨[], ⟨⟨0, by simp [hempty]⟩, {overlap.addr}, by simp⟩, ?_⟩
          rw [ht, if_neg hd, hempty]
          simp
      obtain ⟨woken₁, hm, hgo⟩ := hgo
      rw [hgo] at he
      obtain ⟨rest'', woken₂, rfl, rfl, hm'⟩ := ih hnew.drop hrest he
      refine ⟨before ++ rest'', woken₁ ++ woken₂, hlist _, by simp, ?_⟩
      have hall := (Moves.refl before 0).append (hm.append hm')
      simpa using hall
    · rw [ht] at he
      obtain ⟨rfl, rfl⟩ := Prod.mk.inj (Option.some.inj he)
      refine ⟨_, overlap.block, hlist _, rfl, ?_⟩
      exact Moves.middle (X := [overlap]) (Y := [_]) before rest' (Moves.wake_singleton rfl ⟨0, rfl⟩)

/-- A lock that swallows no chain. -/
theorem setlock_moves {lock : Lockf} (hlock : lock.Valid) (hv : ∀ lf ∈ l, lf.Valid) (ho : Ordered l)
    (hfits : FitsSet lock l) (hblock : lock.block = []) (hs : ∀ lf ∈ l, ¬Swallows lock lf)
    (he : setlock lock fresh l = some (l', woken)) : Moves l l' woken ({lock.addr} + {fresh}) := by
  obtain ⟨before, frm, rfl, hbefore, hcase⟩ := findoverlap_self lock hv ho
  have hpass : (⟨[], [], false⟩ : Cursor).pass before = ⟨before, [], false⟩ := rfl
  rcases hcase with ⟨hf, -⟩ | ⟨overlap, rest, rfl, hid, hc, hf⟩
  · rw [setlock, setLoop, hf] at he
    obtain ⟨rfl, rfl⟩ := Prod.mk.inj (Option.some.inj he)
    refine Moves.middle (X := []) (Y := [lock]) before frm ⟨⟨0, by simp [hblock]⟩, {fresh}, by simp⟩
  · have hmeets : Meets lock overlap before rest := meets_of_ordered hlock hv ho hid hbefore
    have hfitsRest : FitsSet lock rest := fun hl lf hlf => hfits hl lf (by simp [hlf])
    have hrest : ∀ lf ∈ rest, ¬Swallows lock lf := fun lf hlf => hs lf (by simp [hlf])
    cases hov : overlapCase overlap lock with
    | no => exact absurd hov hc
    | equal =>
      simp only [setlock, setLoop, hf, hov, hpass, Bool.false_eq_true, if_false] at he
      split at he
      · obtain ⟨rfl, rfl⟩ := Prod.mk.inj (Option.some.inj he)
        exact Moves.middle (X := [overlap]) (Y := [_]) before rest (Moves.wake_singleton rfl ⟨{lock.addr} + {fresh}, rfl⟩)
      · obtain ⟨rfl, rfl⟩ := Prod.mk.inj (Option.some.inj he)
        exact Moves.middle (X := [overlap]) (Y := [_]) before rest ⟨⟨0, by simp⟩, {lock.addr} + {fresh}, rfl⟩
    | contains =>
      simp only [setlock, setLoop, hf, hov, hpass, Bool.false_eq_true, if_false] at he
      split_ifs at he with htype hstart
      · obtain ⟨rfl, rfl⟩ := Prod.mk.inj (Option.some.inj he)
        exact Moves.refl _ _
      · obtain ⟨rfl, rfl⟩ := Prod.mk.inj (Option.some.inj he)
        refine Moves.middle (X := [overlap]) (Y := [lock, _]) before rest (Moves.wake_singleton ?_ ⟨{fresh}, ?_⟩)
        · simp [hblock, Lockf.wake]
        · simp only [addrs_cons, addrs_nil, Lockf.wake]
          abel
      · obtain ⟨rfl, rfl⟩ := Prod.mk.inj (Option.some.inj he)
        refine Moves.middle (X := [overlap]) (Y := (split overlap lock fresh).1.wake :: lock :: (split overlap lock fresh).2)
          before rest (Moves.wake_singleton ?_ ?_)
        · unfold split
          split <;> simp [hblock, Lockf.wake]
        · unfold split
          split
          · refine ⟨{fresh}, ?_⟩
            simp only [addrs_cons, addrs_nil, Lockf.wake]
            abel
          · refine ⟨0, ?_⟩
            simp only [addrs_cons, addrs_nil, Lockf.wake]
            abel
    | startsBefore =>
      simp only [setlock, setLoop, hf, hov, hpass, Bool.false_eq_true, if_false] at he
      obtain ⟨rest', woken', rfl, rfl, hm⟩ := setLoop_linked_moves (hmeets.linkedAt_startsBefore ho hov hfitsRest) hrest he
      have hfirst : Moves [overlap] [{ overlap.wake with last := offT (lock.start - 1) }, lock] overlap.block
          ({lock.addr} + {fresh}) := by
        refine Moves.wake_singleton ?_ ⟨{fresh}, ?_⟩
        · simp [hblock, Lockf.wake]
        · simp only [addrs_cons, addrs_nil, Lockf.wake]
          abel
      have hall := Moves.middle before [] (hfirst.append hm)
      simpa [Cursor.list] using hall
    | contained =>
      have hlinked := hmeets.linkedAt_contained hov hfitsRest
      have hdrop : ∃ woken₁, Moves [overlap] [lock] woken₁ ({lock.addr} + {fresh}) ∧
          setlock lock fresh (before ++ overlap :: rest) =
            setLoop fresh (before ++ overlap :: rest).length ⟨before, [], true⟩ lock woken₁ rest := by
        by_cases hd : lock.type = .RDLCK ∧ overlap.type = .WRLCK
        · refine ⟨overlap.block, Moves.wake_singleton (by simp [hblock]) ⟨{overlap.addr} + {fresh}, ?_⟩, ?_⟩
          · simp only [addrs_cons, addrs_nil]
            abel
          · simp only [setlock, setLoop, hf, hov, hpass, if_pos hd, List.nil_append]
        · have hempty : overlap.block = [] := by
            by_contra hne
            exact hs overlap (by simp) ⟨hid, hov, hne, hd⟩
          refine ⟨[], ⟨⟨0, by simp [hempty, hblock]⟩, {overlap.addr} + {fresh}, ?_⟩, ?_⟩
          · simp only [addrs_cons, addrs_nil]
            abel
          · simp only [setlock, setLoop, hf, hov, hpass, if_neg hd, hempty, List.nil_append]
      obtain ⟨woken₁, hfirst, hgo⟩ := hdrop
      rw [hgo] at he
      obtain ⟨rest', woken', rfl, rfl, hm⟩ := setLoop_linked_moves hlinked hrest he
      have hall := Moves.middle before [] (hfirst.append hm)
      simpa [Cursor.list] using hall
    | endsAfter =>
      simp only [setlock, setLoop, hf, hov, hpass] at he
      obtain ⟨rfl, rfl⟩ := Prod.mk.inj (Option.some.inj he)
      refine Moves.middle (X := [overlap]) (Y := [lock, _]) before rest (Moves.wake_singleton ?_ ⟨{fresh}, ?_⟩)
      · simp [hblock, Lockf.wake]
      · simp only [addrs_cons, addrs_nil, Lockf.wake]
        abel

/-! ## Clearing a range -/

theorem clearLoop_moves {front : List Lockf} (he : clearLoop unlock fresh n front woken l = some (l', woken')) :
    ∃ rest woken'', l' = front ++ rest ∧ woken' = woken ++ woken'' ∧ Moves l rest woken'' {fresh} := by
  induction n generalizing front l woken with
  | zero => cases he
  | succ n ih =>
    obtain ⟨before, frm, rfl, hcase⟩ := findoverlap_split unlock .self l
    rcases hcase with hf | ⟨overlap, rest, rfl, -, hc, hf⟩
    · rw [clearLoop, hf] at he
      obtain ⟨rfl, rfl⟩ := Prod.mk.inj (Option.some.inj he)
      exact ⟨before ++ frm, [], by simp, by simp, Moves.refl _ _⟩
    · -- the overlap is replaced by `Y`, and that is all
      have hlast : ∀ Y, edges Y = 0 → (∃ freed, addrs Y + freed = {overlap.addr} + {fresh}) →
          l' = front ++ before ++ (Y ++ rest) → woken' = woken ++ overlap.block →
          ∃ rest' woken'', l' = front ++ rest' ∧ woken' = woken ++ woken'' ∧
            Moves (before ++ overlap :: rest) rest' woken'' {fresh} := by
        rintro Y hY hfreed rfl rfl
        exact ⟨before ++ (Y ++ rest), overlap.block, by simp, rfl,
          Moves.middle (X := [overlap]) before rest (Moves.wake_singleton hY hfreed)⟩
      -- the overlap is replaced by `Y`, and the walk goes on
      have hnext : ∀ Y, edges Y = 0 → (∃ freed, addrs Y + freed = {overlap.addr} + 0) →
          clearLoop unlock fresh n (front ++ before ++ Y) (woken ++ overlap.block) rest = some (l', woken') →
          ∃ rest' woken'', l' = front ++ rest' ∧ woken' = woken ++ woken'' ∧
            Moves (before ++ overlap :: rest) rest' woken'' {fresh} := by
        intro Y hY hfreed hgo
        obtain ⟨rest', woken'', rfl, rfl, hm⟩ := ih hgo
        refine ⟨before ++ (Y ++ rest'), overlap.block ++ woken'', by simp, by simp, ?_⟩
        have hall := (Moves.refl before 0).append ((Moves.wake_singleton hY hfreed).append hm)
        simpa using hall
      cases hov : overlapCase overlap unlock with
      | no => exact absurd hov hc
      | equal =>
        simp only [clearLoop, hf, hov] at he
        obtain ⟨rfl, rfl⟩ := Prod.mk.inj (Option.some.inj he)
        exact hlast [] rfl ⟨{overlap.addr} + {fresh}, by simp⟩ (by simp) rfl
      | contains =>
        simp only [clearLoop, hf, hov] at he
        split at he
        · obtain ⟨rfl, rfl⟩ := Prod.mk.inj (Option.some.inj he)
          exact hlast [{ overlap.wake with start := offT (unlock.last + 1) }] rfl ⟨{fresh}, rfl⟩ rfl rfl
        · obtain ⟨rfl, rfl⟩ := Prod.mk.inj (Option.some.inj he)
          refine hlast ((split overlap.wake unlock fresh).1 :: (split overlap.wake unlock fresh).2) ?_ ?_ rfl rfl
          · unfold split
            split <;> simp [Lockf.wake]
          · unfold split
            split
            · exact ⟨{fresh}, rfl⟩
            · exact ⟨0, rfl⟩
      | contained =>
        simp only [clearLoop, hf, hov] at he
        exact hnext [] rfl ⟨{overlap.addr}, rfl⟩ (by simpa using he)
      | startsBefore =>
        simp only [clearLoop, hf, hov] at he
        exact hnext [{ overlap.wake with last := offT (unlock.start - 1) }] rfl ⟨0, rfl⟩ he
      | endsAfter =>
        simp only [clearLoop, hf, hov] at he
        obtain ⟨rfl, rfl⟩ := Prod.mk.inj (Option.some.inj he)
        exact hlast [{ overlap.wake with start := offT (unlock.last + 1) }] rfl ⟨{fresh}, rfl⟩ rfl rfl

theorem clearlock_moves (he : clearlock unlock fresh l = some (l', woken)) : Moves l l' woken {fresh} := by
  unfold clearlock at he
  split_ifs at he with hl htype
  · obtain ⟨rfl, rfl⟩ := Prod.mk.inj (Option.some.inj he)
    exact hl ▸ Moves.refl _ _
  · obtain ⟨rest, woken', rfl, rfl, hm⟩ := clearLoop_moves he
    exact hm

/-- The locks of others stay as they are. -/
theorem clearLoop_others {front : List Lockf} (he : clearLoop unlock fresh n front woken l = some (l', woken'))
    {lf : Lockf} (hid : lf.id ≠ unlock.id) (hlf : lf ∈ front ++ l) : lf ∈ l' := by
  induction n generalizing front l woken with
  | zero => cases he
  | succ n ih =>
    obtain ⟨before, frm, rfl, hcase⟩ := findoverlap_split unlock .self l
    rcases hcase with hf | ⟨overlap, rest, rfl, hov, hc, hf⟩
    · rw [clearLoop, hf] at he
      obtain ⟨rfl, rfl⟩ := Prod.mk.inj (Option.some.inj he)
      simpa using hlf
    · have hmem : lf ∈ front ++ before ∨ lf ∈ rest := by
        simp only [List.mem_append, List.mem_cons] at hlf ⊢
        rcases hlf with hlf | hlf | rfl | hlf
        · exact .inl (.inl hlf)
        · exact .inl (.inr hlf)
        · exact absurd (hov.1 rfl) hid
        · exact .inr hlf
      cases hcase : overlapCase overlap unlock with
      | no => exact absurd hcase hc
      | equal | endsAfter =>
        simp only [clearLoop, hf, hcase] at he
        obtain ⟨rfl, rfl⟩ := Prod.mk.inj (Option.some.inj he)
        rcases hmem with hmem | hmem
        · exact List.mem_append_left _ hmem
        · exact List.mem_append_right _ (by simp [hmem])
      | contains =>
        simp only [clearLoop, hf, hcase] at he
        split at he <;>
        · obtain ⟨rfl, rfl⟩ := Prod.mk.inj (Option.some.inj he)
          rcases hmem with hmem | hmem
          · exact List.mem_append_left _ hmem
          · exact List.mem_append_right _ (by simp [hmem])
      | contained =>
        simp only [clearLoop, hf, hcase] at he
        exact ih he (List.mem_append.2 hmem)
      | startsBefore =>
        simp only [clearLoop, hf, hcase] at he
        refine ih he ?_
        rcases hmem with hmem | hmem
        · exact List.mem_append_left _ (List.mem_append_left _ hmem)
        · exact List.mem_append_right _ hmem

theorem clearlock_others (he : clearlock unlock fresh l = some (l', woken)) {lf : Lockf} (hid : lf.id ≠ unlock.id)
    (hlf : lf ∈ l) : lf ∈ l' := by
  unfold clearlock at he
  split_ifs at he with hl htype
  · rw [hl] at hlf
    cases hlf
  · exact clearLoop_others he hid hlf

end BsdKernel.Advlock
