import BsdKernel.Lib.Window
import BsdKernel.Scripts.Text
/-!
# The duplicate-type remover

`fix_duplicates` of `scripts/fix-duplicate-return-comprehensive.py` on the lines
of a file. The loop is a deletion by a window of three lines (`fix_duplicates_eq`).
It compares the line before as a string, and it never looks back: what it removes
are the duplicate types, and all of them, exactly on the files of
`fix_duplicates_iff`.
-/

namespace BsdKernel.FixDuplicates

open BsdKernel.Scripts BsdKernel.Lib.Window

/-! ## The script -/

/-- `types`, the type keywords. -/
def types : List Line :=
  [['i', 'n', 't'], ['v', 'o', 'i', 'd'], ['c', 'h', 'a', 'r'], ['l', 'o', 'n', 'g'], ['s', 'h', 'o', 'r', 't'],
    ['f', 'l', 'o', 'a', 't'], ['d', 'o', 'u', 'b', 'l', 'e'], ['u', 'n', 's', 'i', 'g', 'n', 'e', 'd'],
    ['s', 'i', 'g', 'n', 'e', 'd']]

/-- The test on three lines: the second is a type keyword, the first ends with the same letters, and
the third looks like a function definition. -/
def removes (line1 line2 line3 : Line) : Bool :=
  types.contains (strip line2) && (strip line2).isSuffixOf (strip line1) && looksLikeFunction (strip line3)

/-- A line deleted, with the line before it and the lines behind it. -/
abbrev Deletion := Line × Line × List Line

/-- The loop at place `i`. A deletion leaves `i` where it is, in a shorter list. -/
def loop (lines : List Line) (i : Nat) (deleted : List Deletion) : List Line × List Deletion :=
  if h : i + 2 < lines.length then
    if removes lines[i] lines[i + 1] lines[i + 2] then
      loop (lines.eraseIdx (i + 1)) i (deleted ++ [(lines[i], lines[i + 1], lines.drop (i + 2))])
    else loop lines (i + 1) deleted
  else (lines, deleted)
termination_by lines.length - i
decreasing_by
  · rw [List.length_eraseIdx_of_lt (by omega)]
    omega
  · omega

/-- `fix_duplicates`: the lines written back, and the deletions made. -/
def fix_duplicates (lines : List Line) : List Line × List Deletion := loop lines 0 []

/-! ## What the script is for -/

/-- The words of declaration specifiers: storage classes, qualifiers and types. -/
def specifiers : List Line :=
  types ++ [['s', 't', 'a', 't', 'i', 'c'], ['e', 'x', 't', 'e', 'r', 'n'], ['r', 'e', 'g', 'i', 's', 't', 'e', 'r'],
    ['a', 'u', 't', 'o'], ['t', 'y', 'p', 'e', 'd', 'e', 'f'], ['i', 'n', 'l', 'i', 'n', 'e'],
    ['c', 'o', 'n', 's', 't'], ['v', 'o', 'l', 'a', 't', 'i', 'l', 'e']]

/-- The line is made of declaration specifiers and nothing else. -/
def SpecifierLine (l : Line) : Prop := words l ≠ [] ∧ ∀ w ∈ words l, w ∈ specifiers

/-- The line is a type keyword that repeats the last word of the specifiers before it, at a function
definition. -/
def Duplicate (prev line : Line) (after : List Line) : Prop :=
  strip line ∈ types ∧ SpecifierLine prev ∧ lastWord prev = strip line ∧ beginsDefinition after = true

/-- The remover does its work on a file: it deletes type keywords, only those that are duplicates and
all of them, and a second run finds nothing. -/
structure Exact (lines : List Line) : Prop where
  keyword : ∀ prev line after, (prev, line, after) ∈ (fix_duplicates lines).2 → strip line ∈ types
  duplicate : ∀ prev line after, (prev, line, after) ∈ (fix_duplicates lines).2 → Duplicate prev line after
  all : ∀ before prev line after, lines = before ++ prev :: line :: after → Duplicate prev line after →
    (prev, line, after) ∈ (fix_duplicates lines).2
  idempotent : (fix_duplicates (fix_duplicates lines).1).1 = (fix_duplicates lines).1
  none_left : ∀ before prev line after, (fix_duplicates lines).1 = before ++ prev :: line :: after →
    ¬Duplicate prev line after

/-! ## The loop as a deletion by a window -/

theorem removes_apart (a b c x d : Line) (h : removes a b c = true) : removes x c d = false := by
  simp only [removes, Bool.and_eq_true] at h
  have hparen := mem_of_looksLikeFunction h.2
  have hnone : ∀ t ∈ types, '(' ∉ t := by decide
  have hnot : types.contains (strip c) = false := by
    rw [← Bool.not_eq_true, List.contains_iff_mem]
    exact fun hmem => hnone _ hmem hparen
  rw [removes, hnot, Bool.false_and, Bool.false_and]

theorem drop_three {lines : List Line} {i : Nat} (h : i + 2 < lines.length) :
    lines.drop i = lines[i] :: lines[i + 1] :: lines[i + 2] :: lines.drop (i + 3) := by
  rw [List.drop_eq_getElem_cons (by omega), List.drop_eq_getElem_cons (i := i + 1) (by omega),
    List.drop_eq_getElem_cons (i := i + 2) h]

theorem eraseIdx_drop {lines : List Line} {i : Nat} (h : i + 2 < lines.length) :
    (lines.eraseIdx (i + 1)).take i = lines.take i ∧
      (lines.eraseIdx (i + 1)).drop i = lines[i] :: lines[i + 2] :: lines.drop (i + 3) := by
  have hlen : (lines.take i).length = i := List.length_take_of_le (by omega)
  have hsplit : lines.eraseIdx (i + 1) = lines.take i ++ lines[i] :: lines[i + 2] :: lines.drop (i + 3) := by
    conv_lhs => rw [← List.take_append_drop i lines, drop_three h]
    rw [List.eraseIdx_append_of_length_le (by omega), hlen, Nat.add_sub_cancel_left]
    rfl
  rw [hsplit, List.take_left' hlen, List.drop_left' hlen]
  exact ⟨rfl, rfl⟩

/-- At place `i` the lines before are done, and the pass goes on with those from `i` on. -/
theorem loop_eq (lines : List Line) (i : Nat) (deleted : List Deletion) :
    loop lines i deleted =
      (lines.take i ++ sweep removes (lines.drop i), deleted ++ windows removes (lines.drop i)) := by
  fun_induction loop lines i deleted with
  | case1 lines i deleted h hremoves ih =>
    obtain ⟨htake, hdrop⟩ := eraseIdx_drop h
    have hrest : windows removes (lines[i] :: lines[i + 2] :: lines.drop (i + 3)) =
        windows removes (lines[i + 1] :: lines[i + 2] :: lines.drop (i + 3)) := by
      rw [windows_third removes removes_apart _ _ hremoves, windows_third removes removes_apart _ _ hremoves]
    have hsweep : sweep removes (lines[i] :: lines[i + 1] :: lines[i + 2] :: lines.drop (i + 3)) =
        sweep removes (lines[i] :: lines[i + 2] :: lines.drop (i + 3)) := by
      rw [sweep, if_pos hremoves]
    rw [ih, htake, hdrop, drop_three h, hrest, hsweep, windows, if_pos hremoves, List.drop_eq_getElem_cons h,
      List.append_assoc]
    rfl
  | case2 lines i deleted h hremoves ih =>
    rw [ih, drop_three h, windows, if_neg hremoves, sweep, if_neg hremoves, List.take_succ_eq_append_getElem (by omega),
      List.append_assoc, List.singleton_append, List.drop_eq_getElem_cons (i := i + 1) (by omega),
      List.drop_eq_getElem_cons (i := i + 2) h]
  | case3 lines i deleted h =>
    have hshort : (lines.drop i).length ≤ 2 := by
      rw [List.length_drop]
      omega
    obtain ⟨rest, hrest⟩ : ∃ rest, rest = lines.drop i := ⟨_, rfl⟩
    rw [← hrest] at hshort ⊢
    have hstop : sweep removes rest = rest ∧ windows removes rest = [] := by
      rcases rest with - | ⟨_, - | ⟨_, - | ⟨_, rest⟩⟩⟩
      · exact ⟨by rw [sweep]; simp, rfl⟩
      · exact ⟨by rw [sweep]; simp, rfl⟩
      · exact ⟨by rw [sweep]; simp, rfl⟩
      · simp at hshort
    rw [hstop.1, hstop.2, hrest, List.take_append_drop, List.append_nil]

theorem fix_duplicates_eq (lines : List Line) :
    fix_duplicates lines = (sweep removes lines, windows removes lines) := by
  rw [fix_duplicates, loop_eq, List.take_zero, List.drop_zero, List.nil_append, List.nil_append]

/-! ## When it is exact -/

theorem Duplicate.removes {prev line next : Line} {after : List Line} (h : Duplicate prev line (next :: after)) :
    removes prev line next = true := by
  obtain ⟨htype, -, hlast, hbegins⟩ := h
  simp only [beginsDefinition, Bool.and_eq_true] at hbegins
  simp only [FixDuplicates.removes, Bool.and_eq_true, List.contains_iff_mem, List.isSuffixOf_iff_suffix]
  exact ⟨⟨htype, hlast ▸ lastWord_suffix prev⟩, hbegins.1⟩

/-- What the script removes is a duplicate, and the line before it is not itself a type keyword behind
a line that ends with the same letters. -/
structure Plain (lines : List Line) : Prop where
  duplicate : ∀ before prev line next after, lines = before ++ prev :: line :: next :: after →
    removes prev line next = true → Duplicate prev line (next :: after)
  single : ∀ before first prev line next after, lines = before ++ first :: prev :: line :: next :: after →
    removes prev line next = true → ¬(strip prev ∈ types ∧ strip prev <:+ strip first)

/-- The second part of the condition: no two places to remove at share their third line. -/
theorem not_chained_iff {lines : List Line} :
    ¬Chained removes lines ↔ ∀ before first prev line next after,
      lines = before ++ first :: prev :: line :: next :: after → removes prev line next = true →
        ¬(strip prev ∈ types ∧ strip prev <:+ strip first) := by
  have hpair : ∀ first prev line next, removes prev line next = true →
      (removes first prev next = true ↔ strip prev ∈ types ∧ strip prev <:+ strip first) := by
    intro first prev line next h
    simp only [removes, Bool.and_eq_true, List.contains_iff_mem, List.isSuffixOf_iff_suffix] at h ⊢
    exact and_iff_left h.2
  constructor
  · intro hnot before first prev line next after hl hp htypes
    exact hnot ⟨before, first, prev, line, next, after, hl, (hpair _ _ _ _ hp).2 htypes, hp⟩
  · rintro hall ⟨before, first, prev, line, next, after, hl, hp, hp'⟩
    exact hall _ _ _ _ _ _ hl hp' ((hpair _ _ _ _ hp').1 hp)

/-- The remover is exact on a file just when each place where its test holds is a duplicate type, and
no such type stands below another one that repeats a line above it. -/
theorem fix_duplicates_iff (lines : List Line) : Exact lines ↔ Plain lines := by
  have hsweep : sweep removes (sweep removes lines) = sweep removes lines ↔ ¬Chained removes lines := by
    rw [sweep_eq_self_iff, windows_sweep removes removes_apart]
  constructor
  · intro h
    refine ⟨fun before prev line next after hl hp => ?_, not_chained_iff.1 (hsweep.1 ?_)⟩
    · apply h.duplicate
      rw [fix_duplicates_eq]
      exact (mem_windows _).2 ⟨before, next, after, rfl, hl, hp⟩
    · have := h.idempotent
      rwa [fix_duplicates_eq, fix_duplicates_eq] at this
  · intro h
    have hchained : ¬Chained removes lines := not_chained_iff.2 h.single
    have hdup : ∀ prev line after, (prev, line, after) ∈ (fix_duplicates lines).2 → Duplicate prev line after := by
      intro prev line after hmem
      rw [fix_duplicates_eq, mem_windows] at hmem
      obtain ⟨before, next, rest, rfl, hl, hp⟩ := hmem
      exact h.duplicate _ _ _ _ _ hl hp
    refine ⟨fun prev line after hmem => (hdup _ _ _ hmem).1, hdup, ?_, ?_, ?_⟩
    · intro before prev line after hl hd
      cases after with
      | nil => simp [Duplicate, beginsDefinition] at hd
      | cons next after =>
        rw [fix_duplicates_eq, mem_windows]
        exact ⟨before, next, after, rfl, hl, hd.removes⟩
    · rw [fix_duplicates_eq, fix_duplicates_eq]
      exact hsweep.2 hchained
    · intro before prev line after hl hd
      cases after with
      | nil => simp [Duplicate, beginsDefinition] at hd
      | cons next after =>
        have hnone := (windows_sweep removes removes_apart lines).2 hchained
        rw [fix_duplicates_eq] at hl
        have hmem := (mem_windows removes).2 ⟨before, next, after, rfl, hl, hd.removes⟩
        rw [hnone] at hmem
        exact List.not_mem_nil hmem

/-! ## Three type lines -/

def intLine : Line := ['i', 'n', 't', '\n']

def nameLine : Line := ['f', '(', ')', '\n']

/-- A function whose type stands on three lines. -/
def threeTypes : List Line := [intLine, intLine, intLine, nameLine, ['{', '\n'], ['}', '\n']]

/-- One type is removed and a duplicate is left, which a second run removes. -/
theorem fix_duplicates_three :
    (fix_duplicates threeTypes).1 = [intLine, intLine, nameLine, ['{', '\n'], ['}', '\n']] ∧
      (fix_duplicates (fix_duplicates threeTypes).1).1 = [intLine, nameLine, ['{', '\n'], ['}', '\n']] ∧
      ¬Exact threeTypes := by
  have hint : removes intLine intLine intLine = false := by decide
  have hname : removes intLine intLine nameLine = true := by decide
  have hbody : removes intLine nameLine ['{', '\n'] = false := by decide
  have hend : removes nameLine ['{', '\n'] ['}', '\n'] = false := by decide
  have hone : (fix_duplicates threeTypes).1 = [intLine, intLine, nameLine, ['{', '\n'], ['}', '\n']] := by
    simp [fix_duplicates_eq, threeTypes, sweep, hint, hname, hbody, hend]
  have htwo : (fix_duplicates (fix_duplicates threeTypes).1).1 = [intLine, nameLine, ['{', '\n'], ['}', '\n']] := by
    rw [hone]
    simp [fix_duplicates_eq, sweep, hname, hbody, hend]
  refine ⟨hone, htwo, fun h => ?_⟩
  have := congrArg List.length (h.idempotent)
  rw [htwo, hone] at this
  exact absurd this (by decide)

end BsdKernel.FixDuplicates
