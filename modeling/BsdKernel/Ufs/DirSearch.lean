import BsdKernel.Ufs.DirEntries
/-!
# The search of a directory

`searchloop_eq`: on a well-formed directory the loop of `ufs_lookup` goes from entry to
entry. What it finds is the entry with the name, or else a place for a new one: some
entries of one block that have enough space between them.
-/

namespace BsdKernel.UfsDir

variable {pre : List Entry} {s : Scan} {e : Entry}

/-- The space of an entry that is not used. -/
def Entry.free (e : Entry) : Int := if e.live then e.reclen - e.dsize else e.reclen

/-- The unused space of some entries. -/
def freeOf (es : List Entry) : Int := (es.map Entry.free).sum

/-- The variables behind an entry that does not match. -/
def advance (off : Nat) (e : Entry) (s : Scan) : Scan :=
  { s with prevoff := off, enduseful := if e.live then off + e.reclen else s.enduseful }

/-- The search, by the entries. -/
def scan (name : List UInt8) (needed : Nat) : Nat → Scan → List Entry → Search
  | _, s, [] => .notfound s
  | off, s, e :: es =>
    let s := slotStep needed off e.reclen e.free s
    if e.live ∧ e.name = name then .found s off else scan name needed (off + e.reclen) (advance off e s) es

section Scan
variable {fs : Fs} {d : Bytes} {a b : Nat} {es : List Entry} {name : List UInt8} {needed : Nat}

@[simp] theorem slotStep_prevoff (off reclen : Nat) (size : Int) (s : Scan) :
    (slotStep needed off reclen size s).prevoff = s.prevoff := by
  simp only [slotStep, slotCount, slotReset]
  split_ifs <;> rfl

@[simp] theorem slotStep_enduseful (off reclen : Nat) (size : Int) (s : Scan) :
    (slotStep needed off reclen size s).enduseful = s.enduseful := by
  simp only [slotStep, slotCount, slotReset]
  split_ifs <;> rfl

theorem searchloop_eq (h : Laid fs d a es b) {fuel : Nat} (hfuel : es.length ≤ fuel) (s : Scan) :
    searchloop fs d name needed b fuel a s = scan name needed a s es := by
  induction es generalizing a fuel s with
  | nil =>
    obtain rfl : a = b := h
    cases fuel with
    | zero => rfl
    | succ fuel => rw [searchloop, if_neg (Nat.lt_irrefl a)]; rfl
  | cons e es ih =>
    obtain ⟨he, hg, hrest⟩ := h
    have hpos := hg.pos
    have hle := hrest.le
    obtain ⟨fuel, rfl⟩ : ∃ n, fuel = n + 1 := ⟨fuel - 1, by rw [List.length_cons] at hfuel; omega⟩
    obtain ⟨hzero, hbad⟩ := not_bad he hg
    have hreclen : dReclen d a = e.reclen := by rw [← he]; rfl
    have hnamlen : dNamlen d a = e.name.length := by rw [← he, entryAt_namlen]
    have hname : dName d a (dNamlen d a) = e.name := by rw [← he]; rfl
    have hino : dIno d a = e.ino := by rw [← he]; rfl
    have hlive : dIno d a ≠ 0 ↔ e.live = true := by rw [hino, Entry.live, decide_eq_true_eq]
    have hfree : (if dIno d a ≠ 0 then (dReclen d a : Int) - DIRSIZ (dNamlen d a) else dReclen d a) = e.free := by
      unfold Entry.free Entry.dsize
      rw [hreclen, hnamlen]
      simp only [hlive]
    have hmatch : (dIno d a ≠ 0 ∧ dNamlen d a = name.length ∧ dName d a (dNamlen d a) = name) ↔
        e.live = true ∧ e.name = name := by
      rw [hlive, hname, hnamlen]
      constructor
      · rintro ⟨h₁, -, h₂⟩
        exact ⟨h₁, h₂⟩
      · rintro ⟨h₁, h₂⟩
        exact ⟨h₁, by rw [h₂], h₂⟩
    have hnext : ∀ t : Scan, searchloop fs d name needed b fuel (a + e.reclen) t = scan name needed (a + e.reclen) t es :=
      fun t => ih hrest (by rw [List.length_cons] at hfuel; omega) t
    rw [searchloop, if_pos (by omega), if_neg (by tauto), scan]
    simp only [hfree]
    rw [hreclen]
    by_cases hm : e.live = true ∧ e.name = name
    · rw [if_pos (hmatch.2 hm), if_pos hm]
    · rw [if_neg (fun h => hm (hmatch.1 h)), if_neg hm, hnext, advance]
      simp only [hlive]

theorem scan_match (name : List UInt8) (needed off : Nat) (s : Scan) (es : List Entry) :
    (∃ s' p e q, scan name needed off s es = .found s' (off + len p) ∧ es = p ++ e :: q ∧ e.live = true ∧ e.name = name) ∨
    ∃ s', scan name needed off s es = .notfound s' ∧ ∀ e ∈ es, e.live = true → e.name ≠ name := by
  induction es generalizing off s with
  | nil => exact .inr ⟨s, rfl, by simp⟩
  | cons e es ih =>
    rw [scan]
    by_cases hm : e.live = true ∧ e.name = name
    · exact .inl ⟨_, [], e, es, by simp only [if_pos hm]; rfl, rfl, hm.1, hm.2⟩
    · simp only [if_neg hm]
      rcases ih (off + e.reclen) (advance off e (slotStep needed off e.reclen e.free s)) with
        ⟨s', p, e', q, hscan, rfl, hlive, hname⟩ | ⟨s', hscan, hno⟩
      · refine .inl ⟨s', e :: p, e', q, ?_, rfl, hlive, hname⟩
        rw [hscan, len_cons, Nat.add_assoc]
      · refine .inr ⟨s', hscan, fun e' he' => ?_⟩
        rcases List.mem_cons.1 he' with rfl | he'
        · exact fun hlive hname => hm ⟨hlive, hname⟩
        · exact hno e' he'

/-- What the search knows of the entries it has passed. -/
structure Passed (pre : List Entry) (s : Scan) : Prop where
  prevoff : ∀ p l, pre = p ++ [l] → s.prevoff = len p
  useful : ∀ p e q, pre = p ++ e :: q → e.live = true → len p + e.reclen ≤ s.enduseful
  enduseful : s.enduseful ≤ len pre

theorem Passed.nil (s : Scan) (h : s.enduseful = 0) : Passed [] s where
  prevoff := fun p l h => by simp at h
  useful := fun p e q h => by simp at h
  enduseful := by rw [h]; exact Nat.zero_le _

theorem Passed.advance (h : Passed pre s) (e : Entry) (t : Scan) (ht : t.enduseful = s.enduseful) :
    Passed (pre ++ [e]) (advance (len pre) e t) where
  prevoff := fun p l hp => by
    obtain ⟨rfl, -⟩ := List.append_inj' hp rfl
    rfl
  useful := fun p e' q hp hlive => by
    show len p + e'.reclen ≤ if e.live then len pre + e.reclen else t.enduseful
    rcases List.eq_nil_or_concat q with rfl | ⟨q, l, rfl⟩
    · obtain ⟨rfl, hl⟩ := List.append_inj' hp rfl
      obtain rfl := (List.cons.inj hl).1
      exact Nat.le_of_eq (if_pos hlive).symm
    · have hpre : pre = p ++ e' :: q := by
        rw [List.concat_eq_append, ← List.cons_append, ← List.append_assoc] at hp
        exact (List.append_inj' hp rfl).1
      have huse := h.useful p e' q hpre hlive
      split
      · rw [hpre, len_append, len_cons]
        omega
      · rw [ht]
        exact huse
  enduseful := by
    have := h.enduseful
    show (if e.live then len pre + e.reclen else t.enduseful) ≤ _
    rw [len_append, len_cons, len_nil]
    split <;> omega

/-- A search from the start also knows the entry before the one it finds, and what it has passed. -/
theorem scan_spec (h : Passed pre s) (es : List Entry) :
    (∃ s' p e q, scan name needed (len pre) s es = .found s' (len (pre ++ p)) ∧ es = p ++ e :: q ∧ e.live = true ∧
      e.name = name ∧ ∀ p' l, pre ++ p = p' ++ [l] → s'.prevoff = len p') ∨
    ∃ s', scan name needed (len pre) s es = .notfound s' ∧ (∀ e ∈ es, e.live = true → e.name ≠ name) ∧ Passed (pre ++ es) s' := by
  induction es generalizing pre s with
  | nil => exact .inr ⟨s, rfl, by simp, by rwa [List.append_nil]⟩
  | cons e es ih =>
    rw [scan]
    by_cases hm : e.live = true ∧ e.name = name
    · left
      refine ⟨slotStep needed (len pre) e.reclen e.free s, [], e, es, ?_, rfl, hm.1, hm.2, fun p' l hp => ?_⟩
      · simp only [List.append_nil]
        rw [if_pos hm]
      · rw [slotStep_prevoff]
        exact h.prevoff p' l (by rwa [List.append_nil] at hp)
    · simp only [if_neg hm]
      have hstep := h.advance e (slotStep needed (len pre) e.reclen e.free s) (by rw [slotStep_enduseful])
      have hlen : len pre + e.reclen = len (pre ++ [e]) := by simp
      rw [hlen]
      rcases ih hstep with ⟨s', p, e', q, hscan, rfl, hlive, hname, hprev⟩ | ⟨s', hscan, hno, hpass⟩
      · left
        refine ⟨s', e :: p, e', q, ?_, rfl, hlive, hname, fun p' l hp => ?_⟩
        · rw [hscan, List.append_assoc, List.singleton_append]
        · exact hprev p' l (by rwa [List.append_assoc, List.singleton_append])
      · right
        refine ⟨s', hscan, fun e' he' => ?_, by rwa [List.append_assoc, List.singleton_append] at hpass⟩
        rcases List.mem_cons.1 he' with rfl | he'
        · exact fun hlive hname => hm ⟨hlive, hname⟩
        · exact hno e' he'

/-! ## Space for a new entry -/

/-- The entries `range` of one block have space for the new one. -/
structure Space (needed : Nat) (pre : List Entry) (offset size : Nat) : Prop where
  range : ∃ p r q, pre = p ++ r ++ q ∧ offset = len p ∧ size = len r ∧ r ≠ [] ∧ needed ≤ freeOf r ∧
    len p % DIRBLKSIZ + len r ≤ DIRBLKSIZ

/-- The space that has been counted in the block so far. -/
def Counted (pre : List Entry) (offset : Option Nat) (free : Int) : Prop :=
  match offset with
  | none => free = 0
  | some o => ∃ p r, pre = p ++ r ∧ o = len p ∧ r ≠ [] ∧ free = freeOf r ∧ len p % DIRBLKSIZ + len r ≤ DIRBLKSIZ

/-- What the search knows of the space behind it. -/
def SlotInv (needed : Nat) (pre : List Entry) (s : Scan) : Prop :=
  match s.slotstatus with
  | .NONE => Counted pre s.slotoffset s.slotfreespace
  | _ => ∃ o, s.slotoffset = some o ∧ Space needed pre o s.slotsize

theorem free_nonneg (h : e.Good fs a) : 0 ≤ e.free := by
  have := h.room
  unfold Entry.free
  split <;> omega

@[simp] theorem freeOf_cons (e : Entry) (es : List Entry) : freeOf (e :: es) = e.free + freeOf es := by simp [freeOf]

@[simp] theorem freeOf_nil : freeOf [] = 0 := rfl

@[simp] theorem freeOf_append (es₁ es₂ : List Entry) : freeOf (es₁ ++ es₂) = freeOf es₁ + freeOf es₂ := by simp [freeOf]

theorem Space.append {o n : Nat} (h : Space needed pre o n) (e : Entry) : Space needed (pre ++ [e]) o n := by
  obtain ⟨p, r, q, rfl, rest⟩ := h.range
  exact ⟨p, r, q ++ [e], by rw [List.append_assoc _ q], rest⟩

theorem space_single (hg : e.Good fs (len pre)) (hfree : needed ≤ e.free) :
    Space needed (pre ++ [e]) (len pre) e.reclen := by
  have hfits := hg.fits
  have hlt : len pre % DIRBLKSIZ < DIRBLKSIZ := Nat.mod_lt _ (by decide)
  exact ⟨pre, [e], [], by simp, rfl, by simp, by simp, by simpa using hfree, by simp; omega⟩

/-- The space that is counted at an entry within a block. -/
theorem Counted.step {offset : Option Nat} {free : Int} (h : Counted pre offset free) (hg : e.Good fs (len pre))
    (hoff : len pre % DIRBLKSIZ ≠ 0 ∨ offset = none) :
    Counted (pre ++ [e]) (some (offset.getD (len pre))) (free + e.free) := by
  have hfits := hg.fits
  have hlt : len pre % DIRBLKSIZ < DIRBLKSIZ := Nat.mod_lt _ (by decide)
  rcases offset with _ | o
  · have hzero : free = 0 := h
    exact ⟨pre, [e], rfl, rfl, by simp, by simp [hzero], by simp; omega⟩
  · obtain ⟨p, r, rfl, rfl, hr, rfl, hblock⟩ := h
    have hoff := hoff.resolve_right (by simp)
    refine ⟨p, r ++ [e], by rw [List.append_assoc], rfl, by simp, by simp, ?_⟩
    rw [len_append] at hoff hfits hlt
    simp only [len_append, len_cons, len_nil, Nat.add_zero]
    -- the entry before it did not end the block
    have hin : (len p + len r) % DIRBLKSIZ = len p % DIRBLKSIZ + len r := by
      rw [Nat.add_mod]
      unfold DIRBLKSIZ at *
      omega
    omega

theorem Counted.skip {offset : Option Nat} {free : Int} (h : Counted pre offset free) (hg : e.Good fs (len pre))
    (hoff : len pre % DIRBLKSIZ ≠ 0 ∨ offset = none) (hfree : e.free = 0) : Counted (pre ++ [e]) offset free := by
  rcases offset with _ | o
  · exact h
  · have := h.step hg hoff
    rwa [hfree, Int.add_zero] at this

/-- Behind the start of a block nothing has been counted. -/
def Started (off : Nat) (s : Scan) : Prop := s.slotstatus = .NONE → off % DIRBLKSIZ ≠ 0 ∨ s.slotoffset = none

theorem SlotInv.reset (h : SlotInv needed pre s) :
    SlotInv needed pre (slotReset (len pre) s) ∧ Started (len pre) (slotReset (len pre) s) := by
  unfold slotReset
  split
  · rename_i hs
    refine ⟨?_, fun _ => .inr rfl⟩
    simp only [SlotInv, hs.1]
    rfl
  · rename_i hs
    refine ⟨h, fun hnone => .inl fun hzero => hs ⟨hnone, hzero⟩⟩

theorem SlotInv.count (h : SlotInv needed pre s) (hstart : Started (len pre) s) (hg : e.Good fs (len pre)) :
    SlotInv needed (pre ++ [e]) (slotCount needed (len pre) e.reclen e.free s) := by
  have hnonneg := free_nonneg hg
  unfold slotCount
  cases hst : s.slotstatus with
  | NONE =>
    have hoff := hstart hst
    simp only [SlotInv, hst] at h
    simp only [ne_eq, reduceCtorEq, not_false_eq_true, true_and, if_true]
    split_ifs with hpos hbig hfull
    · exact ⟨len pre, rfl, space_single hg hbig⟩
    · obtain ⟨p, r, hpre, ho, hr, hfree, hblock⟩ := h.step hg hoff
      refine ⟨_, rfl, p, r, [], by rw [hpre, List.append_nil], ho, ?_, hr, by rw [← hfree]; exact hfull, hblock⟩
      have hsum : len pre + e.reclen = len p + len r := by
        have := congrArg len hpre
        simpa using this
      simp only [ho]
      omega
    · simp only [SlotInv]
      exact h.step hg hoff
    · simp only [SlotInv, hst]
      exact h.skip hg hoff (by omega)
  | COMPACT =>
    simp only [SlotInv, hst] at h
    obtain ⟨o, ho, hspace⟩ := h
    simp only [reduceCtorEq, if_false, ne_eq, not_false_eq_true, true_and]
    split_ifs with hpos hbig
    · exact ⟨len pre, rfl, space_single hg hbig⟩
    · simp only [SlotInv, hst]
      exact ⟨o, ho, hspace.append e⟩
    · simp only [SlotInv, hst]
      exact ⟨o, ho, hspace.append e⟩
  | FOUND =>
    simp only [SlotInv, hst] at h
    obtain ⟨o, ho, hspace⟩ := h
    simp only [ne_eq, not_true_eq_false, false_and, if_false, SlotInv, hst]
    exact ⟨o, ho, hspace.append e⟩

theorem SlotInv.step (h : SlotInv needed pre s) (hg : e.Good fs (len pre)) :
    SlotInv needed (pre ++ [e]) (slotStep needed (len pre) e.reclen e.free s) := by
  obtain ⟨hreset, hstart⟩ := h.reset
  exact hreset.count hstart hg

theorem scan_slot {es : List Entry} {s' : Scan} (h : SlotInv needed pre s) (hl : Laid fs d (len pre) es b)
    (hs : scan name needed (len pre) s es = .notfound s') : SlotInv needed (pre ++ es) s' := by
  induction es generalizing pre s with
  | nil =>
    obtain rfl := Search.notfound.inj hs
    rwa [List.append_nil]
  | cons e es ih =>
    rw [scan] at hs
    by_cases hm : e.live = true ∧ e.name = name
    · simp only [if_pos hm, reduceCtorEq] at hs
    · simp only [if_neg hm] at hs
      have hlen : len pre + e.reclen = len (pre ++ [e]) := by simp
      have hstep : SlotInv needed (pre ++ [e]) (advance (len pre) e (slotStep needed (len pre) e.reclen e.free s)) :=
        h.step hl.2.1
      have hrest := hl.2.2
      rw [hlen] at hs hrest
      have := ih hstep hrest hs
      rwa [List.append_assoc, List.singleton_append] at this

end Scan

end BsdKernel.UfsDir
