import BsdKernel.Ufs.Lockf
/-!
# Ranges and overlaps

`held` reads the lock list of an inode as a map from owners and bytes to the type
of the lock there. `lf_findoverlap` finds the first lock that meets a range,
and `lf_getblock` a lock in the way, if there is one, when the locks of each owner
are disjoint and in order (`Ordered`).
-/

namespace BsdKernel.Advlock

variable {l : List Lockf} {lock : Lockf}

/-- The byte is in the range of the lock. -/
def Lockf.covers (lf : Lockf) (b : Int) : Prop := lf.start ≤ b ∧ (lf.last = -1 ∨ b ≤ lf.last)

instance (lf : Lockf) (b : Int) : Decidable (lf.covers b) := inferInstanceAs (Decidable (_ ∧ _))

/-- The range is one of offsets. -/
def Lockf.Valid (lf : Lockf) : Prop :=
  0 ≤ lf.start ∧ lf.start ≤ OFF_MAX ∧ (lf.last = -1 ∨ (lf.start ≤ lf.last ∧ lf.last ≤ OFF_MAX))

instance (lf : Lockf) : Decidable lf.Valid := inferInstanceAs (Decidable (_ ∧ _))

/-- What the owner `id` has locked the byte for. -/
def held (l : List Lockf) (id : Nat) (b : Int) : Option Typ :=
  (l.find? fun lf => lf.id = id ∧ lf.covers b).map (·.type)

/-- `a` ends before `b` starts. -/
def Before (a b : Lockf) : Prop := a.last ≠ -1 ∧ a.last < b.start

instance (a b : Lockf) : Decidable (Before a b) := inferInstanceAs (Decidable (_ ∧ _))

/-- The locks of each owner are disjoint and in increasing order. -/
def Ordered (l : List Lockf) : Prop := l.Pairwise fun a b => a.id = b.id → Before a b

instance (l : List Lockf) : Decidable (Ordered l) := inferInstanceAs (Decidable (l.Pairwise _))

@[simp] theorem held_nil (id : Nat) (b : Int) : held [] id b = none := rfl

theorem held_cons (lf : Lockf) (l : List Lockf) (id : Nat) (b : Int) :
    held (lf :: l) id b = if lf.id = id ∧ lf.covers b then some lf.type else held l id b := by
  by_cases h : lf.id = id ∧ lf.covers b
  · rw [if_pos h]; simp [held, h]
  · rw [if_neg h]; simp [held, h]

theorem held_append (l l' : List Lockf) (id : Nat) (b : Int) :
    held (l ++ l') id b = (held l id b).or (held l' id b) := by
  unfold held
  rw [List.find?_append]
  cases l.find? fun lf => lf.id = id ∧ lf.covers b <;> rfl

theorem held_eq_none {id : Nat} {b : Int} (h : ∀ lf ∈ l, lf.id = id → ¬lf.covers b) : held l id b = none := by
  unfold held
  rw [Option.map_eq_none_iff, List.find?_eq_none]
  intro lf hlf
  simpa using h lf hlf

theorem Before.not_covers_right {a c : Lockf} (h : Before a c) {b : Int} (hb : a.covers b) : ¬c.covers b := by
  unfold Before Lockf.covers at *
  omega

theorem offT_eq {x : Int} (h₀ : 0 ≤ x) (h₁ : x ≤ OFF_MAX) : offT x = x := by
  unfold offT OFF_MAX at *
  rw [Int.bmod_eq_of_le] <;> omega

/-! ## Finding an overlap -/

theorem overlapCase_spec (lf lock : Lockf) :
    match overlapCase lf lock with
    | .no => Before lf lock ∨ Before lock lf
    | .equal => lf.start = lock.start ∧ lf.last = lock.last
    | .contains => lf.start ≤ lock.start ∧ lock.last ≠ -1 ∧ (lf.last = -1 ∨ lock.last ≤ lf.last) ∧
        (lf.start = lock.start → lf.last ≠ lock.last)
    | .contained => lock.start ≤ lf.start ∧ (lock.last = -1 ∨ (lf.last ≠ -1 ∧ lf.last ≤ lock.last))
    | .startsBefore => lf.start < lock.start ∧ (lf.last = -1 ∨ lock.start ≤ lf.last) ∧
        (lock.last = -1 ∨ (lf.last ≠ -1 ∧ lf.last < lock.last))
    | .endsAfter => lock.start < lf.start ∧ lock.last ≠ -1 ∧ lf.start ≤ lock.last ∧
        (lf.last = -1 ∨ lock.last < lf.last) := by
  obtain ⟨c, hc⟩ := Option.isSome_iff_exists.1 (overlapCase?_isSome lf lock)
  have he : overlapCase lf lock = c := by simp [overlapCase, hc]
  rw [he]
  unfold overlapCase? at hc
  unfold Before
  split_ifs at hc <;> cases hc <;> simp only <;> omega

theorem findoverlap_cons (lock lf : Lockf) (whose : Whose) (rest : List Lockf) :
    (findoverlap lock whose (lf :: rest) =
        ((findoverlap lock whose rest).1, lf :: (findoverlap lock whose rest).2.1, (findoverlap lock whose rest).2.2) ∧
      ((whose = .self ↔ lf.id = lock.id) → overlapCase lf lock = .no ∧ (whose = .self → ¬Before lock lf))) ∨
    (findoverlap lock whose (lf :: rest) = (.no, [], lf :: rest) ∧ whose = .self ∧ lf.id = lock.id ∧ Before lock lf) ∨
    (findoverlap lock whose (lf :: rest) = (overlapCase lf lock, [], lf :: rest) ∧ overlapCase lf lock ≠ .no ∧
      (whose = .self ↔ lf.id = lock.id)) := by
  by_cases hskip : (whose = .self ∧ lf.id ≠ lock.id) ∨ (whose = .others ∧ lf.id = lock.id)
  · refine .inl ⟨by simp only [findoverlap, if_pos hskip], fun hw => ?_⟩
    cases whose <;> simp_all
  · have hwhose : whose = .self ↔ lf.id = lock.id := by cases whose <;> simp_all
    by_cases hc : overlapCase lf lock = .no
    · by_cases hstop : whose = .self ∧ lock.last ≠ -1 ∧ lf.start > lock.last
      · exact .inr (.inl ⟨by simp only [findoverlap, if_neg hskip, hc, if_pos hstop], hstop.1, hwhose.1 hstop.1, hstop.2⟩)
      · refine .inl ⟨by simp only [findoverlap, if_neg hskip, hc, if_neg hstop], fun _ => ⟨hc, fun hs hb => hstop ⟨hs, hb⟩⟩⟩
    · refine .inr (.inr ⟨?_, hc, hwhose⟩)
      simp only [findoverlap, if_neg hskip]

theorem findoverlap_append (lock : Lockf) (whose : Whose) (l : List Lockf) :
    l = (findoverlap lock whose l).2.1 ++ (findoverlap lock whose l).2.2 := by
  induction l with
  | nil => rfl
  | cons lf rest ih =>
    rcases findoverlap_cons lock lf whose rest with ⟨he, -⟩ | ⟨he, -⟩ | ⟨he, -⟩
    · rw [he]; exact congrArg (lf :: ·) ih
    · rw [he]; rfl
    · rw [he]; rfl

theorem findoverlap_overlap (lock : Lockf) (whose : Whose) (l : List Lockf) (h : (findoverlap lock whose l).1 ≠ .no) :
    ∃ overlap rest, (findoverlap lock whose l).2.2 = overlap :: rest ∧
      (findoverlap lock whose l).1 = overlapCase overlap lock ∧ (whose = .self ↔ overlap.id = lock.id) := by
  induction l with
  | nil => exact absurd rfl h
  | cons lf rest ih =>
    rcases findoverlap_cons lock lf whose rest with ⟨he, -⟩ | ⟨he, -⟩ | ⟨he, -, hw⟩
    · rw [he] at h ⊢; exact ih h
    · rw [he] at h; exact absurd rfl h
    · rw [he]; exact ⟨lf, rest, rfl, rfl, hw⟩

theorem findoverlap_split (lock : Lockf) (whose : Whose) (l : List Lockf) :
    ∃ before rest, l = before ++ rest ∧
      (findoverlap lock whose l = (.no, before, rest) ∨
        ∃ overlap rest', rest = overlap :: rest' ∧ (whose = .self ↔ overlap.id = lock.id) ∧
          overlapCase overlap lock ≠ .no ∧ findoverlap lock whose l = (overlapCase overlap lock, before, overlap :: rest')) := by
  refine ⟨_, _, findoverlap_append lock whose l, ?_⟩
  by_cases hc : (findoverlap lock whose l).1 = .no
  · exact .inl (by rw [← hc])
  · obtain ⟨overlap, rest, hrest, hcase, hid⟩ := findoverlap_overlap _ _ _ hc
    exact .inr ⟨overlap, rest, hrest, hid, hcase ▸ hc, by rw [← hrest, ← hcase]⟩

theorem findoverlap_before : ∀ lf ∈ (findoverlap lock .self l).2.1, lf.id = lock.id → Before lf lock := by
  induction l with
  | nil => simp [findoverlap]
  | cons lf rest ih =>
    rcases findoverlap_cons lock lf .self rest with ⟨he, hno⟩ | ⟨he, -⟩ | ⟨he, -⟩
    · rw [he]
      intro x hx hid
      rcases List.mem_cons.1 hx with rfl | hx
      · obtain ⟨hc, hb⟩ := hno (by simp [hid])
        have hspec := overlapCase_spec x lock
        rw [hc] at hspec
        exact hspec.resolve_right (hb rfl)
      · exact ih x hx hid
    · rw [he]; simp
    · rw [he]; simp

/-- Where there is no overlap, the locks of the owner that are left start after the lock. -/
theorem findoverlap_no (hv : ∀ lf ∈ l, lf.Valid) (ho : Ordered l) (h : (findoverlap lock .self l).1 = .no) :
    ∀ lf ∈ (findoverlap lock .self l).2.2, lf.id = lock.id → Before lock lf := by
  induction l with
  | nil => simp [findoverlap]
  | cons lf rest ih =>
    obtain ⟨hlf, hrest⟩ := List.pairwise_cons.1 ho
    rcases findoverlap_cons lock lf .self rest with ⟨he, -⟩ | ⟨he, -, hid, hb⟩ | ⟨he, hc, -⟩
    · rw [he] at h ⊢
      exact ih (fun x hx => hv x (List.mem_cons_of_mem _ hx)) hrest h
    · rw [he]
      intro x hx hx'
      rcases List.mem_cons.1 hx with rfl | hx
      · exact hb
      · have hlt := hlf x hx (hid.trans hx'.symm)
        have hval := hv lf List.mem_cons_self
        unfold Before Lockf.Valid at *
        omega
    · rw [he] at h; exact absurd h hc

/-! ## What blocks a lock -/

/-- `lf` is the lock of another owner, in the way of `lock`. -/
def Blocks (lock lf : Lockf) : Prop :=
  lf.id ≠ lock.id ∧ overlapCase lf lock ≠ .no ∧ (lock.type = .WRLCK ∨ lf.type = .WRLCK)

theorem findoverlap_others (lock : Lockf) (l : List Lockf) :
    (∀ lf ∈ (findoverlap lock .others l).2.1, lf.id = lock.id ∨ overlapCase lf lock = .no) ∧
      ((findoverlap lock .others l).1 = .no → (findoverlap lock .others l).2.2 = []) := by
  induction l with
  | nil => simp [findoverlap]
  | cons lf rest ih =>
    rcases findoverlap_cons lock lf .others rest with ⟨he, hno⟩ | ⟨he, hs, -⟩ | ⟨he, hc, -⟩
    · rw [he]
      refine ⟨fun x hx => ?_, ih.2⟩
      rcases List.mem_cons.1 hx with rfl | hx
      · by_cases hid : x.id = lock.id
        · exact .inl hid
        · exact .inr (hno (by simp [hid])).1
      · exact ih.1 x hx
    · cases hs
    · rw [he]; exact ⟨by simp, fun h => absurd h hc⟩

/-- `lf_getblock` finds a blocking lock, if there is one. -/
theorem getblockFrom_spec (lock : Lockf) {n : Nat} (hn : l.length < n) :
    (getblockFrom lock n l = none ∧ ∀ lf ∈ l, ¬Blocks lock lf) ∨
      ∃ lf ∈ l, getblockFrom lock n l = some lf ∧ Blocks lock lf := by
  induction n generalizing l with
  | zero => omega
  | succ n ih =>
    have happ := findoverlap_append lock .others l
    obtain ⟨hbefore, hno⟩ := findoverlap_others lock l
    have hover := findoverlap_overlap lock .others l
    rw [getblockFrom]
    generalize findoverlap lock .others l = r at happ hbefore hno hover
    obtain ⟨c, before, frm⟩ := r
    subst happ
    have hfront : ∀ lf ∈ before, ¬Blocks lock lf := by
      intro lf hlf hb
      rcases hbefore lf hlf with he | he
      · exact hb.1 he
      · exact hb.2.1 he
    by_cases hc : c = .no
    · subst hc
      rw [hno rfl]
      exact .inl ⟨rfl, by simpa using hfront⟩
    · obtain ⟨overlap, rest, rfl, rfl, hid⟩ := hover hc
      have hlen : rest.length < n := by simp at hn; omega
      simp only
      by_cases hw : lock.type = .WRLCK ∨ overlap.type = .WRLCK
      · exact .inr ⟨overlap, by simp, by rw [if_pos hw], by simpa using hid, hc, hw⟩
      · rw [if_neg hw]
        rcases ih hlen with ⟨he, hrest⟩ | ⟨lf, hlf, he, hb⟩
        · refine .inl ⟨he, fun lf hlf => ?_⟩
          rcases List.mem_append.1 hlf with hlf | hlf
          · exact hfront lf hlf
          · rcases List.mem_cons.1 hlf with rfl | hlf
            · exact fun hb => hw hb.2.2
            · exact hrest lf hlf
        · exact .inr ⟨lf, by simp [hlf], he, hb⟩

theorem getblock_none (h : getblock lock l = none) : ∀ lf ∈ l, ¬Blocks lock lf := by
  rcases getblockFrom_spec lock (Nat.lt_succ_self l.length) with ⟨-, h'⟩ | ⟨lf, -, he, -⟩
  · exact h'
  · exact absurd (he.symm.trans h) (by simp)

theorem getblock_some {block : Lockf} (h : getblock lock l = some block) : block ∈ l ∧ Blocks lock block := by
  rcases getblockFrom_spec lock (Nat.lt_succ_self l.length) with ⟨he, -⟩ | ⟨lf, hlf, he, hb⟩
  · exact absurd (he.symm.trans h) (by simp)
  · obtain rfl : lf = block := Option.some.inj (he.symm.trans h)
    exact ⟨hlf, hb⟩

end BsdKernel.Advlock
