import BsdKernel.Ufs.LockfOverlap
/-!
# Setting and clearing a range

A granted `lf_setlock` overwrites the map of the lock list in the range of the lock
(`setlock_spec`), and `lf_clearlock` clears it there (`clearlock_spec`).

The one condition is that no lock which goes to infinity is to be cut behind the
largest offset (`FitsSet`, `FitsClear`), for there the start of what is left wraps.
-/

namespace BsdKernel.Advlock

variable {front rest l X before : List Lockf} {lock overlap : Lockf} {c : Cursor}

/-! ## Setting a lock -/

/-- The list is ordered, and is the map `m`. -/
structure Holds (l : List Lockf) (m : Nat → Int → Option Typ) : Prop where
  ordered : Ordered l
  valid : ∀ lf ∈ l, lf.Valid
  map : ∀ id b, held l id b = m id b

theorem ordered_insert (ho : Ordered (front ++ rest)) (hf : ∀ lf ∈ front, lf.id = lock.id → Before lf lock)
    (hr : ∀ lf ∈ rest, lf.id = lock.id → Before lock lf) : Ordered (front ++ lock :: rest) := by
  obtain ⟨h₁, h₂, h₃⟩ := List.pairwise_append.1 ho
  refine List.pairwise_append.2 ⟨h₁, List.pairwise_cons.2 ⟨fun a ha hid => hr a ha hid.symm, h₂⟩, fun a ha b hb => ?_⟩
  rcases List.mem_cons.1 hb with rfl | hb
  · exact hf a ha
  · exact h₃ a ha b hb

theorem ordered_shrink {x : Lockf} (x' : Lockf) (ho : Ordered (front ++ x :: rest)) (hid : x'.id = x.id)
    (hs : x.start ≤ x'.start) (hl : x'.last = x.last ∨ (x'.last ≠ -1 ∧ (x.last = -1 ∨ x'.last ≤ x.last))) :
    Ordered (front ++ x' :: rest) := by
  obtain ⟨h₁, h₂, h₃⟩ := List.pairwise_append.1 ho
  obtain ⟨h₄, h₅⟩ := List.pairwise_cons.1 h₂
  refine List.pairwise_append.2 ⟨h₁, List.pairwise_cons.2 ⟨fun a ha hida => ?_, h₅⟩, fun a ha b hb hida => ?_⟩
  · have hb := h₄ a ha (hid.symm.trans hida)
    unfold Before at *
    omega
  · rcases List.mem_cons.1 hb with rfl | hb
    · have hb := h₃ a ha x List.mem_cons_self (hida.trans hid)
      unfold Before at *
      omega
    · exact h₃ a ha b (List.mem_cons_of_mem _ hb) hida

theorem findoverlap_self (lock : Lockf) (hv : ∀ lf ∈ l, lf.Valid) (ho : Ordered l) :
    ∃ before rest, l = before ++ rest ∧ (∀ lf ∈ before, lf.id = lock.id → Before lf lock) ∧
      ((findoverlap lock .self l = (.no, before, rest) ∧ ∀ lf ∈ rest, lf.id = lock.id → Before lock lf) ∨
        ∃ overlap rest', rest = overlap :: rest' ∧ overlap.id = lock.id ∧ overlapCase overlap lock ≠ .no ∧
          findoverlap lock .self l = (overlapCase overlap lock, before, overlap :: rest')) := by
  refine ⟨_, _, findoverlap_append lock .self l, findoverlap_before, ?_⟩
  by_cases hc : (findoverlap lock .self l).1 = .no
  · exact .inl ⟨by rw [← hc], findoverlap_no hv ho hc⟩
  · obtain ⟨overlap, rest, hrest, hcase, hid⟩ := findoverlap_overlap _ _ _ hc
    exact .inr ⟨overlap, rest, hrest, hid.1 rfl, hcase ▸ hc, by rw [← hrest, ← hcase]⟩

/-- The list around a linked lock: what is left of the owner's starts inside the lock. -/
structure LinkedAt (c : Cursor) (lock : Lockf) (rest : List Lockf) : Prop where
  linked : c.linked = true
  valid : lock.Valid ∧ ∀ lf ∈ c.front ++ (c.mid ++ rest), lf.Valid
  ordered : Ordered (c.front ++ (c.mid ++ rest))
  inFront : ∀ lf ∈ c.front, lf.id = lock.id → Before lf lock
  between : ∀ lf ∈ c.mid, lf.id ≠ lock.id
  behind : ∀ lf ∈ rest, lf.id = lock.id → lock.start < lf.start
  fits : lock.last = OFF_MAX → ∀ lf ∈ rest, lf.id = lock.id → lf.last ≠ -1

theorem LinkedAt.drop (h : LinkedAt c lock (overlap :: rest)) : LinkedAt c lock rest := by
  have hsub : (c.front ++ (c.mid ++ rest)).Sublist (c.front ++ (c.mid ++ overlap :: rest)) :=
    ((List.sublist_cons_self overlap rest).append_left c.mid).append_left c.front
  exact ⟨h.linked, ⟨h.valid.1, fun lf hlf => h.valid.2 lf (hsub.subset hlf)⟩, h.ordered.sublist hsub, h.inFront, h.between,
    fun lf hlf => h.behind lf (List.mem_cons_of_mem _ hlf), fun hl lf hlf => h.fits hl lf (List.mem_cons_of_mem _ hlf)⟩

theorem LinkedAt.setBlock (h : LinkedAt c lock rest) (block : List Nat) :
    LinkedAt c { lock with block := block } rest :=
  ⟨h.linked, h.valid, h.ordered, h.inFront, h.between, h.behind, h.fits⟩

theorem LinkedAt.holds (h : LinkedAt c lock rest) (hafter : ∀ lf ∈ rest, lf.id = lock.id → Before lock lf) :
    Holds (c.list lock rest) (held (c.list lock rest)) := by
  refine ⟨ordered_insert h.ordered h.inFront fun lf hlf hid => ?_, fun lf hlf => ?_, fun _ _ => rfl⟩
  · rcases List.mem_append.1 hlf with hlf | hlf
    · exact absurd hid (h.between lf hlf)
    · exact hafter lf hlf hid
  · by_cases he : lf = lock
    · exact he ▸ h.valid.1
    · exact h.valid.2 lf (by simpa [Cursor.list, he] using hlf)

theorem held_list_setBlock (c : Cursor) (lock : Lockf) (block : List Nat) (rest : List Lockf) :
    held (c.list { lock with block := block } rest) = held (c.list lock rest) := by
  funext id b
  simp only [Cursor.list, held_append, held_cons]
  rfl

theorem held_list_contained (hid : overlap.id = lock.id) (hsub : ∀ b, overlap.covers b → lock.covers b)
    (rest : List Lockf) : held (c.list lock (overlap :: rest)) = held (c.list lock rest) := by
  funext id b
  simp only [Cursor.list, held_append, held_cons]
  by_cases hl : lock.id = id ∧ lock.covers b
  · rw [if_pos hl, if_pos hl]
  · have ho : ¬(overlap.id = id ∧ overlap.covers b) := fun ho => hl ⟨hid.symm.trans ho.1, hsub b ho.2⟩
    rw [if_neg hl, if_neg hl, if_neg ho]

theorem held_list_shrink (overlap' : Lockf) (hid : overlap.id = lock.id) (hid' : overlap'.id = overlap.id)
    (htype : overlap'.type = overlap.type) (hsame : ∀ b, ¬lock.covers b → (overlap'.covers b ↔ overlap.covers b))
    (rest : List Lockf) : held (c.list lock (overlap' :: rest)) = held (c.list lock (overlap :: rest)) := by
  funext id b
  simp only [Cursor.list, held_append, held_cons, hid', htype]
  by_cases hl : lock.id = id ∧ lock.covers b
  · rw [if_pos hl, if_pos hl]
  · rw [if_neg hl, if_neg hl]
    by_cases ho : overlap.id = id
    · simp only [ho, true_and, hsame b fun hb => hl ⟨hid.symm.trans ho, hb⟩]
    · simp [ho]

/-- A lock that ends behind the new one keeps what is behind it. -/
theorem LinkedAt.trim (h : LinkedAt c lock (overlap :: rest)) (hid : overlap.id = lock.id)
    (hin : overlap.start ≤ lock.last) (hl : lock.last ≠ -1) (hov : overlap.last = -1 ∨ lock.last < overlap.last) :
    Holds (c.list lock ({ overlap.wake with start := offT (lock.last + 1) } :: rest))
      (held (c.list lock (overlap :: rest))) := by
  have hlock := h.valid.1
  have hval := h.valid.2 overlap (by simp)
  have hmax : lock.last + 1 ≤ OFF_MAX := by
    have hfits := fun he => h.fits he overlap List.mem_cons_self hid
    unfold Lockf.Valid at *
    omega
  have hlast : offT (lock.last + 1) = lock.last + 1 := offT_eq (by unfold Lockf.Valid at *; omega) hmax
  have hs := h.behind overlap List.mem_cons_self hid
  have hord : Ordered (c.front ++ c.mid ++ overlap :: rest) := by simpa using h.ordered
  have hbehind : ∀ lf ∈ rest, lf.id = lock.id → Before overlap lf := by
    intro lf hlf hlfid
    have hpair := (List.pairwise_append.1 hord).2.1
    exact (List.pairwise_cons.1 hpair).1 lf hlf (hid.trans hlfid.symm)
  rw [hlast, ← held_list_shrink { overlap.wake with start := lock.last + 1 } hid rfl rfl]
  · refine LinkedAt.holds ⟨h.linked, ⟨hlock, fun lf hlf => ?_⟩, ?_, h.inFront, h.between, fun lf hlf hlfid => ?_,
      fun he lf hlf hlfid => ?_⟩ fun lf hlf hlfid => ?_
    · simp only [List.mem_append, List.mem_cons] at hlf
      rcases hlf with hlf | hlf | rfl | hlf
      · exact h.valid.2 lf (by simp [hlf])
      · exact h.valid.2 lf (by simp [hlf])
      · unfold Lockf.Valid Lockf.wake at *
        simp only
        omega
      · exact h.valid.2 lf (by simp [hlf])
    · simpa using ordered_shrink { overlap.wake with start := lock.last + 1 } hord rfl (by simp only; omega) (.inl rfl)
    · rcases List.mem_cons.1 hlf with rfl | hlf
      · simp only
        unfold Lockf.Valid at hlock
        omega
      · exact h.behind lf (List.mem_cons_of_mem _ hlf) hlfid
    · rcases List.mem_cons.1 hlf with rfl | hlf
      · exact h.fits he overlap List.mem_cons_self hid
      · exact h.fits he lf (List.mem_cons_of_mem _ hlf) hlfid
    · rcases List.mem_cons.1 hlf with rfl | hlf
      · exact ⟨hl, by simp only; omega⟩
      · have hb := hbehind lf hlf hlfid
        unfold Before Lockf.Valid at *
        omega
  · intro b hb
    unfold Lockf.covers at *
    unfold Lockf.Valid Lockf.wake at *
    simp only
    omega

/-- A turn of the loop once the lock is linked: it is the last, or a lock inside
the new one is dropped, or one that ends behind it is cut. -/
theorem LinkedAt.turn (h : LinkedAt c lock rest) (fresh n : Nat) (woken : List Nat) :
    ∃ before frm, rest = before ++ frm ∧ LinkedAt ⟨c.front, c.mid ++ before, true⟩ lock frm ∧
      ((setLoop fresh (n + 1) c lock woken rest =
          some ((⟨c.front, c.mid ++ before, true⟩ : Cursor).list lock frm, woken) ∧
        ∀ lf ∈ frm, lf.id = lock.id → Before lock lf) ∨
      ∃ overlap rest', frm = overlap :: rest' ∧ overlap.id = lock.id ∧
        ((overlapCase overlap lock = .contained ∧
          setLoop fresh (n + 1) c lock woken rest =
            if lock.type = .RDLCK ∧ overlap.type = .WRLCK then
              setLoop fresh n ⟨c.front, c.mid ++ before, true⟩ lock (woken ++ overlap.block) rest'
            else
              setLoop fresh n ⟨c.front, c.mid ++ before, true⟩ { lock with block := overlap.block ++ lock.block } woken rest') ∨
        (overlapCase overlap lock = .endsAfter ∧
          setLoop fresh (n + 1) c lock woken rest =
            some ((⟨c.front, c.mid ++ before, true⟩ : Cursor).list lock
              ({ overlap.wake with start := offT (lock.last + 1) } :: rest'), woken ++ overlap.block)))) := by
  have hvr : ∀ lf ∈ rest, lf.Valid := fun lf hlf => h.valid.2 lf (by simp [hlf])
  have hor : Ordered rest := h.ordered.sublist ((List.sublist_append_right _ _).trans (List.sublist_append_right _ _))
  obtain ⟨before, frm, rfl, hbefore, hcase⟩ := findoverlap_self lock hvr hor
  -- nothing of the owner is passed, for what is left starts inside the lock
  have hpassed : ∀ lf ∈ before, lf.id ≠ lock.id := by
    intro lf hlf hid
    have hb := hbefore lf hlf hid
    have hs := h.behind lf (by simp [hlf]) hid
    have hval := hvr lf (by simp [hlf])
    unfold Before Lockf.Valid at *
    omega
  have hpass : c.pass before = ⟨c.front, c.mid ++ before, true⟩ := by simp [Cursor.pass, h.linked]
  have hnew : LinkedAt ⟨c.front, c.mid ++ before, true⟩ lock frm := by
    refine ⟨rfl, ⟨h.valid.1, ?_⟩, ?_, h.inFront, ?_, fun lf hlf => h.behind lf (by simp [hlf]),
      fun hl lf hlf => h.fits hl lf (by simp [hlf])⟩
    · simpa using h.valid.2
    · simpa using h.ordered
    · intro lf hlf
      rcases List.mem_append.1 hlf with hlf | hlf
      · exact h.between lf hlf
      · exact hpassed lf hlf
  refine ⟨before, frm, rfl, hnew, ?_⟩
  rcases hcase with ⟨hf, hafter⟩ | ⟨overlap, rest', rfl, hid, hc, hf⟩
  · exact .inl ⟨by rw [setLoop, hf, ← hpass], hafter⟩
  · refine .inr ⟨overlap, rest', rfl, hid, ?_⟩
    have hs := hnew.behind overlap List.mem_cons_self hid
    have hspec := overlapCase_spec overlap lock
    cases hov : overlapCase overlap lock with
    | no => exact absurd hov hc
    | equal => rw [hov] at hspec; simp only at hspec; omega
    | contains => rw [hov] at hspec; simp only at hspec; omega
    | startsBefore => rw [hov] at hspec; simp only at hspec; omega
    | contained =>
      rw [hov] at hf
      refine .inl ⟨rfl, ?_⟩
      simp only [setLoop, hf, hpass]
      split <;> rfl
    | endsAfter =>
      rw [hov] at hf
      exact .inr ⟨rfl, by simp only [setLoop, hf, hpass]⟩

theorem setLoop_linked (fresh : Nat) (woken : List Nat) {n : Nat} (hn : rest.length < n) (h : LinkedAt c lock rest) :
    ∃ l' woken', setLoop fresh n c lock woken rest = some (l', woken') ∧ Holds l' (held (c.list lock rest)) := by
  induction n generalizing c lock woken rest with
  | zero => omega
  | succ n ih =>
    obtain ⟨before, frm, rfl, hnew, hturn⟩ := h.turn fresh n woken
    have hlist : (⟨c.front, c.mid ++ before, true⟩ : Cursor).list lock frm = c.list lock (before ++ frm) := by
      simp [Cursor.list]
    rw [← hlist]
    rcases hturn with ⟨he, hafter⟩ | ⟨overlap, rest', rfl, hid, ⟨hov, he⟩ | ⟨hov, he⟩⟩
    · exact ⟨_, _, he, hnew.holds hafter⟩
    · have hspec := overlapCase_spec overlap lock
      rw [hov] at hspec
      simp only at hspec
      have hlen : rest'.length < n := by simp at hn; omega
      have hsub : ∀ b, overlap.covers b → lock.covers b := by
        intro b hb
        unfold Lockf.covers at *
        omega
      rw [he, held_list_contained hid hsub]
      split
      · exact ih _ hlen hnew.drop
      · obtain ⟨l', woken', he, hh⟩ := ih woken hlen (hnew.drop.setBlock (overlap.block ++ lock.block))
        rw [held_list_setBlock] at hh
        exact ⟨l', woken', he, hh⟩
    · have hspec := overlapCase_spec overlap lock
      rw [hov] at hspec
      exact ⟨_, _, he, hnew.trim hid hspec.2.2.1 hspec.2.1 hspec.2.2.2⟩

/-- `m` with the range of the lock set to its type. -/
def overwrite (lock : Lockf) (type : Option Typ) (m : Nat → Int → Option Typ) (id : Nat) (b : Int) : Option Typ :=
  if id = lock.id ∧ lock.covers b then type else m id b

theorem held_replace {Y : List Lockf} {type : Option Typ} (hf : ∀ lf ∈ front, lf.id = lock.id → Before lf lock)
    (hr : type = none → ∀ lf ∈ rest, lf.id = lock.id → Before lock lf)
    (h : ∀ id b, held X id b = overwrite lock type (held Y) id b) (id : Nat) (b : Int) :
    held (front ++ (X ++ rest)) id b = overwrite lock type (held (front ++ (Y ++ rest))) id b := by
  simp only [overwrite, held_append, h]
  by_cases hl : id = lock.id ∧ lock.covers b
  · rw [if_pos hl, if_pos hl, held_eq_none, Option.none_or]
    · cases type with
      | some _ => rfl
      | none =>
        rw [Option.none_or, held_eq_none]
        exact fun lf hlf hid hc => (hr rfl lf hlf (hid.trans hl.1)).not_covers_right hl.2 hc
    · exact fun lf hlf hid hc => (hf lf hlf (hid.trans hl.1)).not_covers_right hc hl.2
  · rw [if_neg hl, if_neg hl]

theorem ordered_replace {id : Nat} (ho : Ordered (front ++ rest)) (hX : Ordered X) (hid : ∀ x ∈ X, x.id = id)
    (hf : ∀ lf ∈ front, lf.id = id → ∀ x ∈ X, Before lf x) (hr : ∀ lf ∈ rest, lf.id = id → ∀ x ∈ X, Before x lf) :
    Ordered (front ++ (X ++ rest)) := by
  obtain ⟨h₁, h₂, h₃⟩ := List.pairwise_append.1 ho
  refine List.pairwise_append.2 ⟨h₁, List.pairwise_append.2 ⟨hX, h₂, fun x hx lf hlf he => ?_⟩, fun lf hlf x hx he => ?_⟩
  · exact hr lf hlf (he.symm.trans (hid x hx)) x hx
  · rcases List.mem_append.1 hx with hx | hx
    · exact hf lf hlf (he.trans (hid x hx)) x hx
    · exact h₃ lf hlf x hx he

/-- The lock may be set without a wrap: no lock of the owner goes to infinity
behind a lock that ends at the largest offset, unless it has the type of the
lock and starts no later. -/
def FitsSet (lock : Lockf) (l : List Lockf) : Prop :=
  lock.last = OFF_MAX → ∀ lf ∈ l, lf.id = lock.id → lf.last = -1 → lf.start ≤ lock.start ∧ lf.type = lock.type

/-- The walk of `lf_setlock` at its first overlap: the owner's locks in front of
it end before the lock, and those behind it start behind it. -/
structure Meets (lock overlap : Lockf) (before rest : List Lockf) : Prop where
  valid : lock.Valid ∧ overlap.Valid ∧ ∀ lf ∈ before ++ rest, lf.Valid
  id : overlap.id = lock.id
  ordered : Ordered (before ++ rest)
  before : ∀ lf ∈ before, lf.id = lock.id → Before lf lock ∧ Before lf overlap
  behind : ∀ lf ∈ rest, lf.id = lock.id → Before overlap lf

theorem meets_of_ordered (hlock : lock.Valid) (hv : ∀ lf ∈ before ++ overlap :: rest, lf.Valid)
    (ho : Ordered (before ++ overlap :: rest)) (hid : overlap.id = lock.id)
    (hbefore : ∀ lf ∈ before, lf.id = lock.id → Before lf lock) : Meets lock overlap before rest := by
  obtain ⟨h₁, h₂, h₃⟩ := List.pairwise_append.1 ho
  refine ⟨⟨hlock, hv overlap (by simp), fun lf hlf => hv lf ?_⟩, hid, ?_, fun lf hlf hlfid => ⟨hbefore lf hlf hlfid, ?_⟩,
    fun lf hlf hlfid => (List.pairwise_cons.1 h₂).1 lf hlf (hid.trans hlfid.symm)⟩
  · rcases List.mem_append.1 hlf with hlf | hlf <;> simp [hlf]
  · exact ho.sublist ((List.sublist_cons_self overlap rest).append_left before)
  · exact h₃ lf hlf overlap List.mem_cons_self (hlfid.trans hid.symm)

theorem Meets.behind_lock (h : Meets lock overlap before rest)
    (hl : overlap.last = -1 ∨ (lock.last ≠ -1 ∧ lock.last ≤ overlap.last)) :
    ∀ lf ∈ rest, lf.id = lock.id → Before lock lf := by
  intro lf hlf hid
  have hb := h.behind lf hlf hid
  unfold Before at *
  omega

/-- The locks `X` take the place of the overlap. -/
theorem Meets.holds {type : Option Typ} (h : Meets lock overlap before rest)
    (hr : type = none → ∀ lf ∈ rest, lf.id = lock.id → Before lock lf) (hX : Ordered X)
    (hin : ∀ x ∈ X, x.Valid ∧ x.id = lock.id ∧ (lock.start ≤ x.start ∨ overlap.start ≤ x.start) ∧
      (x.last ≠ -1 ∨ overlap.last = -1) ∧ (overlap.last = -1 ∨ x.last ≤ overlap.last))
    (hmap : ∀ id b, held X id b = overwrite lock type (held [overlap]) id b) :
    Holds (before ++ (X ++ rest)) (overwrite lock type (held (before ++ overlap :: rest))) := by
  refine ⟨ordered_replace h.ordered hX (fun x hx => (hin x hx).2.1) (fun lf hlf hid x hx => ?_) (fun lf hlf hid x hx => ?_),
    fun lf hlf => ?_, held_replace (Y := [overlap]) (fun lf hlf hid => (h.before lf hlf hid).1) hr hmap⟩
  · have hb := h.before lf hlf hid
    have hx := (hin x hx).2.2
    unfold Before at *
    omega
  · have hb := h.behind lf hlf hid
    have hx := (hin x hx).2.2
    unfold Before at *
    omega
  · by_cases hx : lf ∈ X
    · exact (hin lf hx).1
    · exact h.valid.2.2 lf (by simpa [hx] using hlf)

/-- What is left of the overlap in front of the lock. -/
def LeftPart (lock overlap : Lockf) (left : List Lockf) : Prop :=
  (left = [] ∧ lock.start ≤ overlap.start) ∨
    ∃ x, left = [x] ∧ overlap.start < lock.start ∧ x.id = overlap.id ∧ x.type = overlap.type ∧
      x.start = overlap.start ∧ x.last = offT (lock.start - 1)

/-- What is left of the overlap behind the lock. -/
def RightPart (lock overlap : Lockf) (right : List Lockf) : Prop :=
  (right = [] ∧ overlap.last = lock.last) ∨
    ∃ x, right = [x] ∧ lock.last ≠ -1 ∧ (overlap.last = -1 ∨ lock.last < overlap.last) ∧
      (lock.last = OFF_MAX → overlap.last ≠ -1) ∧ x.id = overlap.id ∧ x.type = overlap.type ∧ x.start = offT (lock.last + 1) ∧ x.last = overlap.last

/-- The lock, or nothing, between what is left of the overlap. -/
theorem Meets.holds_cut {type : Option Typ} {left mid right : List Lockf} (h : Meets lock overlap before rest)
    (hin : overlap.start ≤ lock.start ∨ overlap.start ≤ lock.last)
    (hl : overlap.last = lock.last ∨ (lock.last ≠ -1 ∧ (overlap.last = -1 ∨ lock.last ≤ overlap.last)))
    (hleft : LeftPart lock overlap left) (hright : RightPart lock overlap right)
    (hmid : (mid = [lock] ∧ type = some lock.type) ∨ (mid = [] ∧ type = none)) :
    Holds (before ++ (left ++ mid ++ right ++ rest)) (overwrite lock type (held (before ++ overlap :: rest))) := by
  obtain ⟨hlock, hval, -⟩ := h.valid
  have hid := h.id
  unfold Lockf.Valid at hlock hval
  refine h.holds (fun _ => h.behind_lock (by omega)) ?_ ?_ ?_
  all_goals
    rcases hleft with ⟨rfl, hs⟩ | ⟨x, rfl, hs, hxid, hxtype, hxs, hxl⟩ <;>
    rcases hright with ⟨rfl, hr⟩ | ⟨y, rfl, hne, hr, hfits, hyid, hytype, hys, hyl⟩ <;>
    rcases hmid with ⟨rfl, rfl⟩ | ⟨rfl, rfl⟩
  all_goals
    try rw [offT_eq (by omega) (by omega)] at hxl
    try rw [offT_eq (by omega) (by omega)] at hys
  iterate 8
    · simp [Ordered, Before]
      try omega
  iterate 8
    · simp only [List.nil_append, List.cons_append, List.append_nil, List.mem_cons, List.not_mem_nil, or_false,
        false_implies, implies_true, forall_eq_or_imp, forall_eq, true_and,
        Lockf.Valid]
      try omega
  iterate 8
    · intro id b
      simp only [List.nil_append, List.cons_append, List.append_nil, held_cons, held_nil, overwrite, *]
      split_ifs <;> first | rfl | (exfalso; simp only [Lockf.covers] at *; omega)

theorem rightPart_trim (hl : lock.last ≠ -1) (hov : overlap.last = -1 ∨ lock.last < overlap.last)
    (hfits : lock.last = OFF_MAX → overlap.last ≠ -1) :
    RightPart lock overlap [{ overlap.wake with start := offT (lock.last + 1) }] :=
  .inr ⟨_, rfl, hl, hov, hfits, rfl, rfl, rfl, rfl⟩

theorem split_parts (fresh : Nat) (hs : overlap.start < lock.start) (hl : lock.last ≠ -1)
    (hov : overlap.last = -1 ∨ lock.last ≤ overlap.last) (hfits : lock.last = OFF_MAX → overlap.last ≠ -1) :
    LeftPart lock overlap [(split overlap lock fresh).1] ∧ LeftPart lock overlap [(split overlap lock fresh).1.wake] ∧
      RightPart lock overlap (split overlap lock fresh).2 := by
  unfold split
  split
  · exact ⟨.inr ⟨_, rfl, hs, rfl, rfl, rfl, rfl⟩, .inr ⟨_, rfl, hs, rfl, rfl, rfl, rfl⟩, .inl ⟨rfl, ‹_›⟩⟩
  · exact ⟨.inr ⟨_, rfl, hs, rfl, rfl, rfl, rfl⟩, .inr ⟨_, rfl, hs, rfl, rfl, rfl, rfl⟩,
      .inr ⟨_, rfl, hl, by omega, hfits, rfl, rfl, rfl, rfl⟩⟩

/-- The overlap takes the type of a lock with its range, or has it already. -/
theorem Meets.holds_type {x : Lockf} (h : Meets lock overlap before rest) (hs : overlap.start ≤ lock.start)
    (hl : overlap.last = -1 ∨ (lock.last ≠ -1 ∧ lock.last ≤ overlap.last))
    (heq : overlap.type = lock.type ∨ (overlap.start = lock.start ∧ overlap.last = lock.last))
    (hx : x.start = overlap.start ∧ x.last = overlap.last ∧ x.id = overlap.id ∧ x.type = lock.type) :
    Holds (before ++ x :: rest) (overwrite lock (some lock.type) (held (before ++ overlap :: rest))) := by
  have hval := h.valid.2.1
  have hid := h.id
  obtain ⟨hxs, hxl, hxid, hxt⟩ := hx
  refine h.holds (X := [x]) (by simp) (by simp [Ordered]) ?_ ?_
  · simp only [List.mem_singleton, forall_eq, Lockf.Valid, hxs, hxl]
    exact ⟨hval, hxid.trans hid, by omega⟩
  · intro id b
    simp only [held_cons, held_nil, overwrite]
    have hcov : x.covers b ↔ overlap.covers b := by simp only [Lockf.covers, hxs, hxl]
    by_cases ho : overlap.id = id ∧ overlap.covers b
    · rw [if_pos ⟨hxid.trans ho.1, hcov.2 ho.2⟩, if_pos ho, hxt]
      by_cases hin : id = lock.id ∧ lock.covers b
      · rw [if_pos hin]
      · rw [if_neg hin]
        rcases heq with heq | heq
        · rw [heq]
        · exact absurd ⟨ho.1.symm.trans hid, by simp only [Lockf.covers] at *; omega⟩ hin
    · have hin : ¬(id = lock.id ∧ lock.covers b) :=
        fun hin => ho ⟨hid.trans hin.1.symm, by simp only [Lockf.covers] at *; omega⟩
      rw [if_neg fun hx => ho ⟨hxid.symm.trans hx.1, hcov.1 hx.2⟩, if_neg ho, if_neg hin]

theorem Meets.linkedAt (h : Meets lock overlap before rest) (hov : overlap.last = -1 ∨ lock.start ≤ overlap.last)
    (hfits : FitsSet lock rest) (hval : ∀ lf ∈ front, lf.Valid) (hord : Ordered (front ++ rest))
    (hfront : ∀ lf ∈ front, lf.id = lock.id → Before lf lock) : LinkedAt ⟨front, [], true⟩ lock rest := by
  have hbehind : ∀ lf ∈ rest, lf.id = lock.id → lock.start < lf.start := by
    intro lf hlf hid
    have hb := h.behind lf hlf hid
    unfold Before at hb
    omega
  refine ⟨rfl, ⟨h.valid.1, fun lf hlf => ?_⟩, hord, hfront, by simp, hbehind, fun hl lf hlf hid hinf => ?_⟩
  · rcases List.mem_append.1 hlf with hlf | hlf
    · exact hval lf hlf
    · exact h.valid.2.2 lf (List.mem_append_right _ hlf)
  · have hle := (hfits hl lf hlf hid hinf).1
    have hlt := hbehind lf hlf hid
    omega

theorem Meets.linkedAt_contained (h : Meets lock overlap before rest) (hov : overlapCase overlap lock = .contained)
    (hfits : FitsSet lock rest) : LinkedAt ⟨before, [], true⟩ lock rest := by
  have hspec := overlapCase_spec overlap lock
  rw [hov] at hspec
  simp only at hspec
  have hval := h.valid.2.1
  unfold Lockf.Valid at hval
  exact h.linkedAt (by omega) hfits (fun lf hlf => h.valid.2.2 lf (List.mem_append_left _ hlf)) h.ordered
    fun lf hlf hid => (h.before lf hlf hid).1

/-- The overlap starts before the lock, and is cut in front of it. -/
theorem Meets.linkedAt_startsBefore (h : Meets lock overlap before rest) (ho : Ordered (before ++ overlap :: rest))
    (hov : overlapCase overlap lock = .startsBefore) (hfits : FitsSet lock rest) :
    LinkedAt ⟨before ++ [{ overlap.wake with last := offT (lock.start - 1) }], [], true⟩ lock rest := by
  obtain ⟨hlock, hval, hv⟩ := h.valid
  have hspec := overlapCase_spec overlap lock
  rw [hov] at hspec
  simp only at hspec
  unfold Lockf.Valid at hlock hval
  rw [offT_eq (x := lock.start - 1) (by omega) (by omega)]
  refine h.linkedAt hspec.2.1 hfits (fun lf hlf => ?_) ?_ fun lf hlf hid => ?_
  · rcases List.mem_append.1 hlf with hlf | hlf
    · exact hv lf (List.mem_append_left _ hlf)
    · rw [List.mem_singleton.1 hlf]
      simp only [Lockf.Valid, Lockf.wake]
      omega
  · simpa using ordered_shrink { overlap.wake with last := lock.start - 1 } ho rfl le_rfl
      (.inr ⟨by simp only; omega, by simp only; omega⟩)
  · rcases List.mem_append.1 hlf with hlf | hlf
    · exact (h.before lf hlf hid).1
    · rw [List.mem_singleton.1 hlf]
      exact ⟨by simp only; omega, by simp only; omega⟩

theorem setlock_spec (fresh : Nat) (hlock : lock.Valid) (hv : ∀ lf ∈ l, lf.Valid) (ho : Ordered l)
    (hfits : FitsSet lock l) :
    ∃ l' woken, setlock lock fresh l = some (l', woken) ∧ Holds l' (overwrite lock (some lock.type) (held l)) := by
  obtain ⟨before, frm, rfl, hbefore, hcase⟩ := findoverlap_self lock hv ho
  have hpass : (⟨[], [], false⟩ : Cursor).pass before = ⟨before, [], false⟩ := rfl
  rcases hcase with ⟨hf, hafter⟩ | ⟨overlap, rest, rfl, hid, hc, hf⟩
  · refine ⟨_, _, by rw [setlock, setLoop, hf], ?_⟩
    refine ⟨ordered_insert ho hbefore hafter, fun lf hlf => ?_,
      held_replace (X := [lock]) (Y := []) hbefore (by simp) fun id b => ?_⟩
    · by_cases he : lf = lock
      · exact he ▸ hlock
      · exact hv lf (by simpa [Cursor.list, hpass, he] using hlf)
    · simp only [held_cons, held_nil, overwrite, eq_comm (a := id)]
  · have hval := hv overlap (by simp)
    have hspec := overlapCase_spec overlap lock
    have hmeets : Meets lock overlap before rest := meets_of_ordered hlock hv ho hid hbefore
    have hfitsRest : FitsSet lock rest := fun hl lf hlf => hfits hl lf (by simp [hlf])
    have hlen : rest.length < (before ++ overlap :: rest).length := by simp; omega
    have hfitsOver : overlap.type ≠ lock.type ∨ lock.start < overlap.start → lock.last = OFF_MAX → overlap.last ≠ -1 := by
      intro hne hl hinf
      have hle := hfits hl overlap (by simp) hid hinf
      rcases hne with hne | hlt
      · exact hne hle.2
      · omega
    unfold Lockf.Valid at hlock hval
    cases hov : overlapCase overlap lock <;> rw [hov] at hspec hf <;> simp only at hspec <;>
      simp only [setlock, setLoop, hf, hpass, Bool.false_eq_true, if_false]
    case no => exact absurd hov hc
    case equal =>
      split
      · exact ⟨_, _, rfl, hmeets.holds_type (by omega) (by omega) (.inr hspec) ⟨rfl, rfl, rfl, rfl⟩⟩
      · exact ⟨_, _, rfl, hmeets.holds_type (by omega) (by omega) (.inr hspec) ⟨rfl, rfl, rfl, rfl⟩⟩
    case contains =>
      split_ifs with htype hstart
      · exact ⟨_, _, rfl, hmeets.holds_type hspec.1 (by omega) (.inl htype) ⟨rfl, rfl, rfl, htype⟩⟩
      · exact ⟨_, _, rfl, hmeets.holds_cut (by omega) (by omega) (.inl ⟨rfl, hstart.ge⟩)
          (rightPart_trim hspec.2.1 (by omega) (hfitsOver (.inl htype))) (.inl ⟨rfl, rfl⟩)⟩
      · obtain ⟨-, hleft, hright⟩ := split_parts fresh (by omega) hspec.2.1 hspec.2.2.1 (hfitsOver (.inl htype))
        exact ⟨_, _, rfl, hmeets.holds_cut (by omega) (by omega) hleft hright (.inl ⟨rfl, rfl⟩)⟩
    case startsBefore =>
      have hlinked := hmeets.linkedAt_startsBefore ho hov hfitsRest
      obtain ⟨l', woken, he, hh⟩ := setLoop_linked fresh ([] ++ overlap.block) hlen hlinked
      refine ⟨l', woken, he, hh.ordered, hh.valid, fun id b => (hh.map id b).trans ?_⟩
      have hlist : (⟨before ++ [{ overlap.wake with last := offT (lock.start - 1) }], [], true⟩ : Cursor).list lock rest =
          before ++ ([{ overlap.wake with last := offT (lock.start - 1) }, lock] ++ rest) := by
        simp [Cursor.list]
      rw [hlist, offT_eq (x := lock.start - 1) (by omega) (by omega)]
      refine held_replace (Y := [overlap]) hbefore (by simp) (fun id b => ?_) id b
      simp only [held_cons, held_nil, overwrite]
      split_ifs <;> first | rfl | (exfalso; simp only [Lockf.covers, Lockf.wake] at *; omega)
    case contained =>
      have hlinked := hmeets.linkedAt_contained hov hfitsRest
      have hmap : ∀ id b, held (before ++ ([lock] ++ rest)) id b =
          overwrite lock (some lock.type) (held (before ++ overlap :: rest)) id b := by
        refine held_replace (Y := [overlap]) hbefore (by simp) fun id b => ?_
        simp only [held_cons, held_nil, overwrite]
        split_ifs <;> first | rfl | (exfalso; simp only [Lockf.covers] at *; omega)
      split
      · obtain ⟨l', woken, he, hh⟩ := setLoop_linked fresh ([] ++ overlap.block) hlen hlinked
        exact ⟨l', woken, he, hh.ordered, hh.valid, fun id b => (hh.map id b).trans (hmap id b)⟩
      · obtain ⟨l', woken, he, hh⟩ := setLoop_linked fresh [] hlen
          (hlinked.setBlock (overlap.block ++ lock.block))
        rw [held_list_setBlock] at hh
        exact ⟨l', woken, he, hh.ordered, hh.valid, fun id b => (hh.map id b).trans (hmap id b)⟩
    case endsAfter =>
      exact ⟨_, _, rfl, hmeets.holds_cut (.inr hspec.2.2.1) (by omega) (.inl ⟨rfl, hspec.1.le⟩)
        (rightPart_trim hspec.2.1 hspec.2.2.2 (hfitsOver (.inr hspec.1))) (.inl ⟨rfl, rfl⟩)⟩

/-! ## Clearing a range -/

/-- The range may be cleared without a wrap: no lock of the owner goes to infinity
behind a range that ends at the largest offset. -/
def FitsClear (unlock : Lockf) (l : List Lockf) : Prop :=
  unlock.last = OFF_MAX → ∀ lf ∈ l, lf.id = unlock.id → lf.last ≠ -1

theorem overwrite_none_congr {Y : List Lockf}
    (h : ∀ id b, ¬(id = lock.id ∧ lock.covers b) → held X id b = held Y id b) (id : Nat) (b : Int) :
    overwrite lock none (held (front ++ (X ++ rest))) id b = overwrite lock none (held (front ++ (Y ++ rest))) id b := by
  simp only [overwrite, held_append]
  by_cases hl : id = lock.id ∧ lock.covers b
  · rw [if_pos hl, if_pos hl]
  · rw [if_neg hl, if_neg hl, h id b hl]

theorem clearLoop_spec {unlock : Lockf} {fresh n : Nat} (front : List Lockf) (woken : List Nat) (hn : l.length < n)
    (hlock : unlock.Valid) (hv : ∀ lf ∈ front ++ l, lf.Valid) (ho : Ordered (front ++ l))
    (hfront : ∀ lf ∈ front, lf.id = unlock.id → Before lf unlock) (hfits : FitsClear unlock l) :
    ∃ l' woken', clearLoop unlock fresh n front woken l = some (l', woken') ∧
      Holds l' (overwrite unlock none (held (front ++ l))) := by
  induction n generalizing front l woken with
  | zero => omega
  | succ n ih =>
    obtain ⟨before, frm, rfl, hbefore, hcase⟩ := findoverlap_self unlock
      (fun lf hlf => hv lf (List.mem_append_right _ hlf)) (ho.sublist (List.sublist_append_right _ _))
    have hpassed : ∀ lf ∈ front ++ before, lf.id = unlock.id → Before lf unlock := by
      intro lf hlf
      rcases List.mem_append.1 hlf with hlf | hlf
      · exact hfront lf hlf
      · exact hbefore lf hlf
    rw [← List.append_assoc] at hv ho ⊢
    rcases hcase with ⟨hf, hafter⟩ | ⟨overlap, rest, rfl, hid, hc, hf⟩
    · exact ⟨_, _, by rw [clearLoop, hf], ho, hv,
        held_replace (X := []) (Y := []) hpassed (fun _ => hafter) (by simp [overwrite])⟩
    · have hmeets := meets_of_ordered hlock hv ho hid hpassed
      have hval := hmeets.valid.2.1
      have hspec := overlapCase_spec overlap unlock
      have hmax := fun hl => hfits hl overlap (by simp) hid
      have hfits' : FitsClear unlock rest := fun hl lf hlf => hfits hl lf (by simp [hlf])
      have hlen : rest.length < n := by simp at hn; omega
      unfold Lockf.Valid at hlock hval
      cases hov : overlapCase overlap unlock <;> rw [hov] at hspec hf <;> simp only at hspec <;>
        simp only [clearLoop, hf]
      case no => exact absurd hov hc
      case equal =>
        exact ⟨_, _, rfl, hmeets.holds_cut (by omega) (by omega) (.inl ⟨rfl, by omega⟩) (.inl ⟨rfl, hspec.2⟩)
          (.inr ⟨rfl, rfl⟩)⟩
      case contains =>
        split
        · exact ⟨_, _, rfl, hmeets.holds_cut (by omega) (by omega) (.inl ⟨rfl, by omega⟩)
            (rightPart_trim hspec.2.1 (by omega) hmax) (.inr ⟨rfl, rfl⟩)⟩
        · obtain ⟨hleft, -, hright⟩ := split_parts fresh
            (show overlap.wake.start < unlock.start by simp only [Lockf.wake]; omega) hspec.2.1 hspec.2.2.1 hmax
          exact ⟨_, _, rfl, hmeets.holds_cut (by omega) (by omega) hleft hright (.inr ⟨rfl, rfl⟩)⟩
      case contained =>
        have hmap : ∀ id b, overwrite unlock none (held (front ++ before ++ ([] ++ rest))) id b =
            overwrite unlock none (held (front ++ before ++ ([overlap] ++ rest))) id b :=
          overwrite_none_congr fun id b hout => by
            simp only [held_cons, held_nil]
            split_ifs <;> first | rfl | (exfalso; simp only [Lockf.covers] at *; omega)
        obtain ⟨l', woken', he, hh⟩ := ih _ (woken ++ overlap.block) hlen hmeets.valid.2.2 hmeets.ordered hpassed hfits'
        exact ⟨l', woken', he, hh.ordered, hh.valid, fun id b => (hh.map id b).trans (hmap id b)⟩
      case startsBefore =>
        rw [offT_eq (x := unlock.start - 1) (by omega) (by omega)]
        have hmap : ∀ id b, overwrite unlock none
            (held (front ++ before ++ ([{ overlap.wake with last := unlock.start - 1 }] ++ rest))) id b =
            overwrite unlock none (held (front ++ before ++ ([overlap] ++ rest))) id b :=
          overwrite_none_congr fun id b hout => by
            simp only [held_cons, held_nil]
            split_ifs <;> first | rfl | (exfalso; simp only [Lockf.covers, Lockf.wake] at *; omega)
        have hv' : ∀ lf ∈ front ++ before ++ [{ overlap.wake with last := unlock.start - 1 }] ++ rest, lf.Valid := by
          intro lf hlf
          rw [List.append_assoc] at hlf
          rcases List.mem_append.1 hlf with hlf | hlf
          · exact hv lf (List.mem_append_left _ hlf)
          · rcases List.mem_cons.1 hlf with rfl | hlf
            · simp only [Lockf.Valid, Lockf.wake]
              omega
            · exact hv lf (List.mem_append_right _ (List.mem_cons_of_mem _ hlf))
        have ho' : Ordered (front ++ before ++ [{ overlap.wake with last := unlock.start - 1 }] ++ rest) := by
          simpa using ordered_shrink { overlap.wake with last := unlock.start - 1 } ho rfl le_rfl
            (.inr ⟨by simp only; omega, by simp only; omega⟩)
        have hpassed' : ∀ lf ∈ front ++ before ++ [{ overlap.wake with last := unlock.start - 1 }],
            lf.id = unlock.id → Before lf unlock := by
          intro lf hlf hlfid
          rcases List.mem_append.1 hlf with hlf | hlf
          · exact hpassed lf hlf hlfid
          · rw [List.mem_singleton.1 hlf]
            exact ⟨by simp only; omega, by simp only; omega⟩
        obtain ⟨l', woken', he, hh⟩ := ih _ (woken ++ overlap.block) hlen hv' ho' hpassed' hfits'
        rw [List.append_assoc (front ++ before)] at hh
        exact ⟨l', woken', he, hh.ordered, hh.valid, fun id b => (hh.map id b).trans (hmap id b)⟩
      case endsAfter =>
        exact ⟨_, _, rfl, hmeets.holds_cut (.inr hspec.2.2.1) (by omega) (.inl ⟨rfl, hspec.1.le⟩)
          (rightPart_trim hspec.2.1 hspec.2.2.2 hmax) (.inr ⟨rfl, rfl⟩)⟩

theorem clearlock_spec {unlock : Lockf} (fresh : Nat) (htype : unlock.type = .UNLCK) (hlock : unlock.Valid)
    (hv : ∀ lf ∈ l, lf.Valid) (ho : Ordered l) (hfits : FitsClear unlock l) :
    ∃ l' woken, clearlock unlock fresh l = some (l', woken) ∧ Holds l' (overwrite unlock none (held l)) := by
  by_cases hl : l = []
  · subst hl
    exact ⟨[], [], rfl, .nil, by simp, fun id b => by simp [overwrite]⟩
  · rw [clearlock, if_neg hl, if_neg (by simp [htype])]
    exact clearLoop_spec [] _ (Nat.lt_succ_self _) hlock hv ho (by simp) hfits

end BsdKernel.Advlock
