import Mathlib.Data.List.Sort
import BsdKernel.Scripts.Text
/-!
# The return-type fixer

`fix_kr_function` of `scripts/fix-kr-functions-multi.py`: a type line is put before
each listed line. The numbers are those of the file before the run, so a run on
its own output names other lines. It is safe to run again exactly on the files in
which it finds nothing to insert (`fix_kr_function_iff`).
-/

namespace BsdKernel.FixKr

open BsdKernel.Scripts

/-! ## Python lists -/

/-- The place a Python index stands for: a negative one counts from the end. -/
def pyIndex (len : Nat) (i : Int) : Option Nat :=
  if 0 ≤ i then if i < len then some i.toNat else none
  else if 0 ≤ i + len then some (i + len).toNat else none

def pyGet (lines : List Line) (i : Int) : Option Line := (pyIndex lines.length i).bind (lines[·]?)

/-! ## The body of a function -/

/-- The loop of `find_function_body` over the `remaining` lines from `i` on. -/
def bodyFrom (lines : List Line) : Nat → Int → Int → Bool → List Line → Option (List Line)
  | 0, _, _, _, body_lines => some body_lines
  | remaining + 1, i, brace_count, in_function, body_lines =>
    (pyGet lines i).bind fun line =>
      let brace_count := brace_count + line.count '{' - line.count '}'
      let in_function := in_function || line.contains '{'
      if in_function ∧ brace_count = 0 then some (body_lines ++ [line])
      else bodyFrom lines remaining (i + 1) brace_count in_function (body_lines ++ [line])

def find_function_body (lines : List Line) (start_line : Int) : Option (List Line) :=
  bodyFrom lines (lines.length - start_line).toNat start_line 0 false []

/-! ## Return statements -/

section Patterns

-- `str.isalnum` of a character
variable (isalnum : Char → Bool)

def RETURN : List Char := ['r', 'e', 't', 'u', 'r', 'n']

/-- `\breturn` followed by text that `rest` accepts, somewhere in the text; `inWord` says whether a
character of a word is before it. -/
def searchReturn (rest : List Char → Bool) : Bool → List Char → Bool
  | _, [] => false
  | inWord, c :: cs =>
    (!inWord && RETURN.isPrefixOf (c :: cs) && rest ((c :: cs).drop 6)) ||
      searchReturn rest (isalnum c || c == '_') cs

/-- `\s*` and then the character `c`. -/
def blanksThen (c : Char) (l : List Char) : Bool := (l.dropWhile isspace).head? == some c

/-- `\s+[^;]`: a second blank is no semicolon either. -/
def blankThenOther : List Char → Bool
  | s :: c :: _ => isspace s && c != ';'
  | _ => false

def has_return_value (body_lines : List Line) : Bool :=
  body_lines.any fun line =>
    (searchReturn isalnum (blanksThen '(') false line || searchReturn isalnum blankThenOther false line) &&
      !searchReturn isalnum (blanksThen ';') false line

/-! ## The insertions -/

inductive ReturnType where
  | int
  | void
  deriving Repr, DecidableEq

/-- The line put before a function. -/
def ReturnType.line : ReturnType → Line
  | .int => ['i', 'n', 't', '\n']
  | .void => ['v', 'o', 'i', 'd', '\n']

/-- The lines that count as a type already there. -/
def typeLines : List Line :=
  [['i', 'n', 't'], ['v', 'o', 'i', 'd'], ['c', 'h', 'a', 'r'], ['s', 't', 'a', 't', 'i', 'c'],
    ['e', 'x', 't', 'e', 'r', 'n']]

/-- The check against a second type: a line after the first whose previous line is one. -/
def typeBefore (lines : List Line) (func_line_idx : Int) : Bool :=
  decide (0 < func_line_idx) &&
    match pyGet lines (func_line_idx - 1) with
    | some prev_line => typeLines.contains (strip prev_line)
    | none => false

/-- The lines, of which one may hold inserted ones before its own, and the fixes made. -/
structure State where
  lines : List Line
  fixes : List (Int × ReturnType)

/-- The loop's body for one number. An index outside the list raises an exception. -/
def fixLine (s : State) (line_num : Int) : Option State :=
  let func_line_idx := line_num - 1
  if s.lines.length ≤ func_line_idx then some s
  else
    (find_function_body s.lines func_line_idx).bind fun body =>
      let return_type : ReturnType := if has_return_value isalnum body then .int else .void
      (pyGet s.lines func_line_idx).bind fun original_line =>
        if typeBefore s.lines func_line_idx then some s
        else
          (pyIndex s.lines.length func_line_idx).map fun i =>
            { lines := s.lines.set i (return_type.line ++ original_line), fixes := s.fixes ++ [(line_num, return_type)] }

/-- `fix_kr_function`: the file after the run. It is written if something was fixed; an exception
leaves it as it is. -/
def fix_kr_function (contents : List Char) (line_numbers : List Int) : List Char :=
  match (line_numbers.insertionSort (· ≥ ·)).foldlM (fixLine isalnum) ⟨readlines contents, []⟩ with
  | none => contents
  | some s => if s.fixes.isEmpty then contents else s.lines.flatten

end Patterns

/-! ## What the fixer is for -/

/-- The body of the function that begins the text: what is between its braces. -/
def functionBody (lines : List Line) : List Char :=
  match behindParameters (plain .code lines.flatten) with
  | none => []
  | some tail => ((bracketed '{' '}' 1 ((tail.dropWhile (· != '{')).drop 1)).map Prod.fst).getD []

/-- A `return` with something before its semicolon. -/
def isValueReturn (l : List Char) : Bool :=
  RETURN.isPrefixOf l && !((l.drop 6).head?.any isIdChar) &&
    ((l.drop 6).dropWhile isspace).head?.any (· != ';')

/-- Some return statement of the text carries a value; `inWord` says whether an identifier goes on. -/
def returnsValue : Bool → List Char → Bool
  | _, [] => false
  | inWord, c :: cs => (!inWord && isValueReturn (c :: cs)) || returnsValue (isIdChar c) cs

/-- The lines with a type line before those that `ins` names. -/
def withTypes (ins : Nat → Option ReturnType) (lines : List Line) : List Line :=
  (lines.mapIdx fun i l => (ins i).toList.map ReturnType.line ++ [l]).flatten

/-- The fixer is safe on a file and a list of numbers. -/
structure Safe (isalnum : Char → Bool) (contents : List Char) (line_numbers : List Int) : Prop where
  inserts : ∃ ins : Nat → Option ReturnType,
    (∀ i t, ins i = some t → i < (readlines contents).length ∧ (i + 1 : Int) ∈ line_numbers) ∧
    readlines (fix_kr_function isalnum contents line_numbers) = withTypes ins (readlines contents) ∧
    ∀ i t, ins i = some t → beginsDefinition ((readlines contents).drop i) = true →
      (t = .int ↔ returnsValue false (functionBody ((readlines contents).drop i)) = true)
  again : fix_kr_function isalnum (fix_kr_function isalnum contents line_numbers) line_numbers =
    fix_kr_function isalnum contents line_numbers

/-! ## What one number does -/

theorem pyIndex_of_nonneg {len : Nat} {i : Int} (h : 0 ≤ i) (hlt : i < len) : pyIndex len i = some i.toNat := by
  rw [pyIndex, if_pos h, if_pos hlt]

theorem pyIndex_eq_some {len j : Nat} {i : Int} (h : pyIndex len i = some j) :
    j < len ∧ (0 ≤ i → i = j) ∧ -(len : Int) ≤ i := by
  unfold pyIndex at h
  split_ifs at h <;> (rw [Option.some.injEq] at h; omega)

theorem pyIndex_isSome {len : Nat} {i : Int} (h : -(len : Int) ≤ i) (hlt : i < len) : ∃ j, pyIndex len i = some j := by
  unfold pyIndex
  split_ifs
  · exact ⟨_, rfl⟩
  · exact ⟨_, rfl⟩
  · omega

theorem pyIndex_none {len : Nat} {i : Int} (h : i < -(len : Int)) : pyIndex len i = none := by
  unfold pyIndex
  split_ifs <;> first | rfl | omega

theorem pyGet_isSome {lines : List Line} {i : Int} (h : -(lines.length : Int) ≤ i) (hlt : i < lines.length) :
    ∃ l, pyGet lines i = some l := by
  obtain ⟨j, hj⟩ := pyIndex_isSome h hlt
  have hjlt := (pyIndex_eq_some hj).1
  exact ⟨lines[j], by rw [pyGet, hj, Option.bind_some, List.getElem?_eq_getElem hjlt]⟩

theorem bodyFrom_isSome (lines : List Line) (remaining : Nat) (i brace : Int) (inside : Bool) (body : List Line)
    (h : -(lines.length : Int) ≤ i) (hend : i + remaining ≤ lines.length) :
    ∃ b, bodyFrom lines remaining i brace inside body = some b := by
  induction remaining generalizing i brace inside body with
  | zero => exact ⟨_, rfl⟩
  | succ remaining ih =>
    obtain ⟨l, hl⟩ := pyGet_isSome h (by omega)
    simp only [bodyFrom, hl, Option.bind_some]
    split
    · exact ⟨_, rfl⟩
    · exact ih _ _ _ _ (by omega) (by omega)

theorem find_function_body_none {lines : List Line} {i : Int} (h : i < -(lines.length : Int)) :
    find_function_body lines i = none := by
  obtain ⟨remaining, hr⟩ : ∃ remaining, (lines.length - i).toNat = remaining + 1 :=
    ⟨(lines.length - i).toNat - 1, by omega⟩
  rw [find_function_body, hr, bodyFrom, pyGet, pyIndex_none h]
  rfl

section Run

variable {isalnum : Char → Bool}

theorem fixLine_beyond {s : State} {n : Int} (h : s.lines.length < n) : fixLine isalnum s n = some s :=
  if_pos (by omega)

theorem fixLine_raises {s : State} {n : Int} (h : n ≤ -(s.lines.length : Int)) : fixLine isalnum s n = none := by
  rw [fixLine, if_neg (by omega), find_function_body_none (by omega)]
  rfl

theorem fixLine_inside {s : State} {n : Int} (h : -(s.lines.length : Int) < n) (hlt : n ≤ s.lines.length) :
    ∃ i t original, pyIndex s.lines.length (n - 1) = some i ∧ s.lines[i]? = some original ∧
      fixLine isalnum s n = some (if typeBefore s.lines (n - 1) then s
        else { lines := s.lines.set i (t.line ++ original), fixes := s.fixes ++ [(n, t)] }) := by
  obtain ⟨i, hi⟩ := pyIndex_isSome (show -(s.lines.length : Int) ≤ n - 1 by omega) (by omega)
  obtain ⟨body, hbody⟩ := bodyFrom_isSome s.lines (s.lines.length - (n - 1)).toNat (n - 1) 0 false []
    (by omega) (by omega)
  obtain ⟨original, ho⟩ : ∃ original, s.lines[i]? = some original :=
    ⟨_, List.getElem?_eq_getElem (pyIndex_eq_some hi).1⟩
  refine ⟨i, if has_return_value isalnum body then .int else .void, original, hi, ho, ?_⟩
  rw [fixLine, if_neg (by omega), find_function_body, hbody]
  simp only [Option.bind_some, pyGet, hi, ho, Option.map_some]
  split <;> rfl

end Run

/-! ## The lines after some insertions -/

/-- The elements of the list in memory: the inserted types and the line itself. -/
def glued (T : Nat → List ReturnType) (lines : List Line) : List Line :=
  lines.mapIdx fun i l => ((T i).map ReturnType.line).flatten ++ l

/-- The lines of the file: the same, a line each. -/
def spread (T : Nat → List ReturnType) (lines : List Line) : List Line :=
  (lines.mapIdx fun i l => (T i).map ReturnType.line ++ [l]).flatten

theorem glued_length (T : Nat → List ReturnType) (lines : List Line) : (glued T lines).length = lines.length :=
  List.length_mapIdx

theorem glued_nil (lines : List Line) : glued (fun _ => []) lines = lines := by
  simp [glued, List.mapIdx_eq_iff]

theorem spread_cons (T : Nat → List ReturnType) (l : Line) (lines : List Line) :
    spread T (l :: lines) = (T 0).map ReturnType.line ++ l :: spread (fun i => T (i + 1)) lines := by
  simp [spread, List.mapIdx_cons]

theorem glued_cons (T : Nat → List ReturnType) (l : Line) (lines : List Line) :
    glued T (l :: lines) = (((T 0).map ReturnType.line).flatten ++ l) :: glued (fun i => T (i + 1)) lines := by
  simp [glued, List.mapIdx_cons]

theorem flatten_spread (T : Nat → List ReturnType) (lines : List Line) :
    (spread T lines).flatten = (glued T lines).flatten := by
  induction lines generalizing T with
  | nil => rfl
  | cons l lines ih => simp [spread_cons, glued_cons, ih]

theorem isLines_types (ts : List ReturnType) (ls : List Line) (h : IsLines ls) :
    IsLines (ts.map ReturnType.line ++ ls) := by
  induction ts with
  | nil => exact h
  | cons t ts ih =>
    refine ⟨.inl ?_, ih⟩
    cases t with
    | int => exact ⟨['i', 'n', 't'], rfl, by decide⟩
    | void => exact ⟨['v', 'o', 'i', 'd'], rfl, by decide⟩

theorem spread_eq_nil {T : Nat → List ReturnType} {lines : List Line} : spread T lines = [] ↔ lines = [] := by
  cases lines <;> simp [spread]

theorem isLines_spread (T : Nat → List ReturnType) (lines : List Line) (h : IsLines lines) :
    IsLines (spread T lines) := by
  induction lines generalizing T with
  | nil => exact h
  | cons l lines ih =>
    rw [spread_cons]
    refine isLines_types _ _ ⟨?_, ih _ h.2⟩
    rw [spread_eq_nil]
    exact h.1

theorem spread_nil (lines : List Line) : spread (fun _ => []) lines = lines := by
  induction lines with
  | nil => rfl
  | cons l lines ih => rw [spread_cons, ih, List.map_nil, List.nil_append]

theorem not_mem_glued (T : Nat → List ReturnType) {lines : List Line} (h : '\r' ∉ lines.flatten) :
    '\r' ∉ (glued T lines).flatten := by
  induction lines generalizing T with
  | nil => exact h
  | cons l lines ih =>
    have htypes : ∀ t : ReturnType, '\r' ∉ t.line := by
      intro t
      cases t <;> decide
    simp only [List.flatten_cons, List.mem_append, not_or] at h
    simp only [glued_cons, List.flatten_cons, List.mem_append, List.mem_flatten, List.mem_map, not_or, not_exists,
      not_and]
    refine ⟨⟨?_, h.1⟩, by simpa only [List.mem_flatten, not_exists, not_and] using ih _ h.2⟩
    rintro _ ⟨t, -, rfl⟩
    exact htypes t

theorem length_le_spread (T : Nat → List ReturnType) (lines : List Line) : lines.length ≤ (spread T lines).length := by
  induction lines generalizing T with
  | nil => exact Nat.zero_le _
  | cons l lines ih =>
    have := ih fun i => T (i + 1)
    rw [spread_cons, List.length_append, List.length_cons, List.length_cons]
    omega

theorem spread_take (T : Nat → List ReturnType) (lines : List Line) (k : Nat) (h : ∀ i < k, T i = []) :
    (spread T lines).take k = lines.take k := by
  induction lines generalizing T k with
  | nil => rfl
  | cons l lines ih =>
    cases k with
    | zero => rfl
    | succ k =>
      rw [spread_cons, h 0 (Nat.succ_pos k)]
      simp [ih (fun i => T (i + 1)) k fun i hi => h (i + 1) (Nat.succ_lt_succ hi)]

theorem glued_longer (T : Nat → List ReturnType) (lines : List Line) :
    lines.flatten.length ≤ (glued T lines).flatten.length ∧
      ((∃ i < lines.length, T i ≠ []) → lines.flatten.length < (glued T lines).flatten.length) := by
  induction lines generalizing T with
  | nil => simp [glued]
  | cons l lines ih =>
    obtain ⟨hle, hlt⟩ := ih fun i => T (i + 1)
    have hzero : T 0 ≠ [] → 0 < ((T 0).map ReturnType.line).flatten.length := by
      intro h
      cases hT : T 0 with
      | nil => exact absurd hT h
      | cons t ts => cases t <;> simp [ReturnType.line]
    simp only [glued_cons, List.flatten_cons, List.length_append, List.length_cons]
    refine ⟨by omega, ?_⟩
    rintro ⟨i, hi, hT⟩
    cases i with
    | zero =>
      have := hzero hT
      omega
    | succ i =>
      have := hlt ⟨i, by omega, hT⟩
      omega

theorem glued_getElem? (T : Nat → List ReturnType) (lines : List Line) (j : Nat) :
    (glued T lines)[j]? = lines[j]?.map fun l => ((T j).map ReturnType.line).flatten ++ l := by
  rw [glued, List.getElem?_mapIdx]

theorem glued_set (T : Nat → List ReturnType) (lines : List Line) (i : Nat) (t : ReturnType) (l : Line)
    (h : (glued T lines)[i]? = some l) :
    (glued T lines).set i (t.line ++ l) = glued (Function.update T i (t :: T i)) lines := by
  apply List.ext_getElem?
  intro j
  rw [glued_getElem?] at h
  obtain ⟨x, hx, rfl⟩ := Option.map_eq_some_iff.1 h
  have hlt : i < lines.length := (List.getElem?_eq_some_iff.1 hx).1
  by_cases hj : i = j
  · subst hj
    rw [List.getElem?_set_self (by rwa [glued_length]), glued_getElem?, hx]
    simp
  · rw [List.getElem?_set_ne hj, glued_getElem?, glued_getElem?, Function.update_of_ne (Ne.symm hj)]

/-! ## A run -/

/-- The state after some numbers, with the types put before each line of `lines`. -/
structure After (lines : List Line) (s : State) (T : Nat → List ReturnType) : Prop where
  glued : s.lines = glued T lines
  fixes : s.fixes = [] ↔ ∀ i, T i = []
  inside : ∀ i, T i ≠ [] → i < lines.length

/-- The number `n` puts a type before line `i`. -/
def Inserts (lines : List Line) (n : Int) (i : Nat) : Prop :=
  pyIndex lines.length (n - 1) = some i ∧ typeBefore lines (n - 1) = false

section Run

variable (isalnum : Char → Bool) {lines : List Line} {s : State} {T : Nat → List ReturnType}

theorem After.typeBefore (h : After lines s T) {b : Nat} (hb : ∀ i < b, T i = []) {n : Int} (hn : n ≤ b + 1) :
    typeBefore s.lines (n - 1) = typeBefore lines (n - 1) := by
  unfold FixKr.typeBefore
  by_cases hpos : 0 < n - 1
  · have hget : pyGet s.lines (n - 1 - 1) = pyGet lines (n - 1 - 1) := by
      rw [pyGet, pyGet, h.glued, glued_length]
      cases hj : pyIndex lines.length (n - 1 - 1) with
      | none => rfl
      | some j =>
        have := (pyIndex_eq_some hj).2.1
        rw [Option.bind_some, Option.bind_some, glued_getElem?, hb j (by omega)]
        simp
    rw [hget]
  · simp only [hpos, decide_false, Bool.false_and]

/-- One number: an exception, or at most one more type. -/
theorem After.step (h : After lines s T) {b : Nat} (hb : ∀ i < b, T i = []) {n : Int} (hn : n ≤ b + 1)
    (hlow : -(lines.length : Int) < n) :
    ∃ s' T', fixLine isalnum s n = some s' ∧ After lines s' T' ∧ ∀ i, T' i ≠ [] ↔ T i ≠ [] ∨ Inserts lines n i := by
  have hlen : s.lines.length = lines.length := by rw [h.glued, glued_length]
  by_cases hbeyond : (s.lines.length : Int) < n
  · refine ⟨s, T, fixLine_beyond hbeyond, h, fun i => ⟨.inl, ?_⟩⟩
    rintro (hT | ⟨hi, -⟩)
    · exact hT
    · have := pyIndex_eq_some hi
      omega
  · obtain ⟨i, t, original, hi, ho, hfix⟩ := @fixLine_inside isalnum s n (by omega) (not_lt.1 hbeyond)
    rw [hlen] at hi
    rw [h.typeBefore hb hn] at hfix
    by_cases htype : FixKr.typeBefore lines (n - 1) = true
    · rw [if_pos htype] at hfix
      refine ⟨s, T, hfix, h, fun j => ⟨.inl, ?_⟩⟩
      rintro (hT | ⟨-, hfalse⟩)
      · exact hT
      · exact absurd htype (by rw [hfalse]; decide)
    · rw [if_neg htype] at hfix
      refine ⟨_, Function.update T i (t :: T i), hfix, ⟨?_, ?_, ?_⟩, fun j => ?_⟩
      · simp only [h.glued] at ho ⊢
        exact glued_set T lines i t original ho
      · refine iff_of_false (by simp) fun hall => ?_
        have := hall i
        rw [Function.update_self] at this
        exact List.cons_ne_nil _ _ this
      · intro j hj
        by_cases hij : j = i
        · exact hij ▸ (pyIndex_eq_some hi).1
        · rw [Function.update_of_ne hij] at hj
          exact h.inside j hj
      · by_cases hij : j = i
        · rw [hij, Function.update_self]
          exact iff_of_true (List.cons_ne_nil _ _) (.inr ⟨hi, Bool.not_eq_true _ ▸ htype⟩)
        · rw [Function.update_of_ne hij]
          refine ⟨.inl, ?_⟩
          rintro (hT | ⟨hj, -⟩)
          · exact hT
          · rw [hi, Option.some.injEq] at hj
            exact absurd hj.symm hij

/-- A run over numbers in descending order, none of which raises an exception. -/
theorem After.run {numbers : List Int} (hs : numbers.Pairwise (· ≥ ·)) (h : After lines s T) {b : Nat}
    (hb : ∀ i < b, T i = []) (hn : ∀ n ∈ numbers, n ≤ b + 1 ∧ -(lines.length : Int) < n) :
    ∃ s' T', numbers.foldlM (fixLine isalnum) s = some s' ∧ After lines s' T' ∧
      ∀ i, T' i ≠ [] ↔ T i ≠ [] ∨ ∃ n ∈ numbers, Inserts lines n i := by
  induction numbers generalizing s T b with
  | nil => exact ⟨s, T, rfl, h, fun i => by simp⟩
  | cons n numbers ih =>
    obtain ⟨hge, hs⟩ := List.pairwise_cons.1 hs
    obtain ⟨hle, hlow⟩ := hn n (List.mem_cons_self ..)
    obtain ⟨s₁, T₁, hfix, h₁, hT₁⟩ := h.step isalnum hb hle hlow
    -- nothing is inserted yet below the line of the last number
    have hb₁ : ∀ i < min b (n - 1).toNat, T₁ i = [] := by
      intro i hi
      by_contra hne
      rcases (hT₁ i).1 hne with hT | ⟨hindex, -⟩
      · exact hT (hb i (by omega))
      · have := (pyIndex_eq_some hindex).2.1
        omega
    obtain ⟨s₂, T₂, hrun, h₂, hT₂⟩ := ih hs h₁ hb₁ fun m hm => by
      have := hge m hm
      have := (hn m (List.mem_cons_of_mem _ hm)).2
      omega
    refine ⟨s₂, T₂, ?_, h₂, fun i => ?_⟩
    · rw [List.foldlM_cons, hfix]
      exact hrun
    · rw [hT₂, hT₁, List.exists_mem_cons_iff, or_assoc]

/-- A number too far below zero ends the run with an exception, wherever it stands. -/
theorem run_raises {numbers : List Int} {len : Nat} {s : State} (hlen : s.lines.length = len)
    (h : ∃ n ∈ numbers, n ≤ -(len : Int)) : numbers.foldlM (fixLine isalnum) s = none := by
  induction numbers generalizing s with
  | nil => simp at h
  | cons n numbers ih =>
    rw [List.foldlM_cons]
    by_cases hlow : n ≤ -(s.lines.length : Int)
    · by_cases hbeyond : (s.lines.length : Int) < n
      · omega
      · rw [fixLine_raises hlow]
        rfl
    · have hrest : ∃ m ∈ numbers, m ≤ -(len : Int) := by
        obtain ⟨m, hm, hle⟩ := h
        rcases List.mem_cons.1 hm with rfl | hm
        · omega
        · exact ⟨m, hm, hle⟩
      by_cases hbeyond : (s.lines.length : Int) < n
      · rw [fixLine_beyond hbeyond]
        exact ih hlen hrest
      · obtain ⟨i, t, original, -, -, hfix⟩ := @fixLine_inside isalnum s n (not_le.1 hlow) (not_lt.1 hbeyond)
        rw [hfix]
        refine ih ?_ hrest
        split
        · exact hlen
        · rw [List.length_set, hlen]

/-! ## What a run leaves of a file -/

/-- No number of the list inserts anything: each is past the end of the file or names a line that has a
type before it, or one of them raises an exception. -/
def Settled (contents : List Char) (numbers : List Int) : Prop :=
  (∃ n ∈ numbers, n ≤ -((readlines contents).length : Int)) ∨
    ∀ n ∈ numbers, ((readlines contents).length : Int) < n ∨ typeBefore (readlines contents) (n - 1) = true

theorem exists_bound (numbers : List Int) : ∃ b : Nat, ∀ n ∈ numbers, n ≤ b + 1 := by
  induction numbers with
  | nil => exact ⟨0, by simp⟩
  | cons n numbers ih =>
    obtain ⟨b, hb⟩ := ih
    refine ⟨b + n.toNat, fun m hm => ?_⟩
    rcases List.mem_cons.1 hm with rfl | hm
    · omega
    · have := hb m hm
      omega

/-- A file whose numbers raise no exception, after the run. -/
theorem fix_kr_function_spec (contents : List Char) {numbers : List Int}
    (h : ∀ n ∈ numbers, -((readlines contents).length : Int) < n) :
    ∃ T, (∀ i, T i ≠ [] ↔ ∃ n ∈ numbers, Inserts (readlines contents) n i) ∧
      (∀ i, T i ≠ [] → i < (readlines contents).length) ∧
      ((∀ i, T i = []) → fix_kr_function isalnum contents numbers = contents) ∧
      ((¬∀ i, T i = []) →
        fix_kr_function isalnum contents numbers = (FixKr.glued T (readlines contents)).flatten) := by
  obtain ⟨b, hb⟩ := exists_bound numbers
  have hstart : After (readlines contents) ⟨readlines contents, []⟩ fun _ => [] :=
    ⟨(glued_nil _).symm, by simp, fun i h => absurd rfl h⟩
  have hsorted := List.pairwise_insertionSort (· ≥ · : Int → Int → Prop) numbers
  obtain ⟨s, T, hrun, hafter, hT⟩ := hstart.run isalnum hsorted (b := b) (fun _ _ => rfl) fun n hn => by
    have hmem := (List.mem_insertionSort _).1 hn
    exact ⟨hb n hmem, h n hmem⟩
  refine ⟨T, fun i => ?_, hafter.inside, fun hnone => ?_, fun hsome => ?_⟩
  · rw [hT]
    simp
  · rw [fix_kr_function, hrun]
    simp [hafter.fixes.2 hnone]
  · have hfixes : s.fixes ≠ [] := fun hfix => hsome (hafter.fixes.1 hfix)
    rw [fix_kr_function, hrun]
    simp [hfixes, hafter.glued]

theorem unchanged_of_settled {contents : List Char} {numbers : List Int} (h : Settled contents numbers) :
    fix_kr_function isalnum contents numbers = contents := by
  by_cases hraise : ∃ n ∈ numbers, n ≤ -((readlines contents).length : Int)
  · obtain ⟨n, hn, hle⟩ := hraise
    rw [fix_kr_function, run_raises isalnum rfl ⟨n, (List.mem_insertionSort _).2 hn, hle⟩]
  · have hall := h.resolve_left hraise
    push Not at hraise
    obtain ⟨T, hT, -, hnone, -⟩ := fix_kr_function_spec isalnum contents hraise
    apply hnone
    intro i
    by_contra hne
    obtain ⟨n, hn, hindex, htype⟩ := (hT i).1 hne
    have hlt := pyIndex_eq_some hindex
    rcases hall n hn with hbeyond | htrue
    · unfold pyIndex at hindex
      split_ifs at hindex <;> omega
    · rw [htype] at htrue
      exact Bool.false_ne_true htrue

theorem exists_first {numbers : List Int} {lines : List Line} (hpos : ∀ n ∈ numbers, 0 < n)
    (h : ∃ n ∈ numbers, n ≤ lines.length ∧ typeBefore lines (n - 1) = false) :
    ∃ m, (m ∈ numbers ∧ m ≤ lines.length ∧ typeBefore lines (m - 1) = false) ∧
      ∀ k ∈ numbers, k ≤ lines.length → typeBefore lines (k - 1) = false → m ≤ k := by
  have hnat : ∃ k : Nat, (k : Int) ∈ numbers ∧ (k : Int) ≤ lines.length ∧ typeBefore lines (k - 1) = false := by
    obtain ⟨n, hn, hle, htype⟩ := h
    have := hpos n hn
    refine ⟨n.toNat, ?_⟩
    rw [Int.toNat_of_nonneg this.le]
    exact ⟨hn, hle, htype⟩
  classical
  refine ⟨Nat.find hnat, Nat.find_spec hnat, fun k hk hle htype => ?_⟩
  have hk0 := hpos k hk
  have hcast : ((k.toNat : Nat) : Int) = k := Int.toNat_of_nonneg hk0.le
  have := Nat.find_min' hnat (m := k.toNat) (by rw [hcast]; exact ⟨hk, hle, htype⟩)
  omega

theorem typeBefore_low (lines : List Line) {i : Int} (h : i ≤ 0) : typeBefore lines i = false := by
  rw [typeBefore, decide_eq_false (not_lt.2 h), Bool.false_and]

theorem typeBefore_congr {lines lines' : List Line} {i : Int} (h : lines'.take i.toNat = lines.take i.toNat)
    (hi : i < lines.length) (hi' : i < lines'.length) : typeBefore lines' i = typeBefore lines i := by
  unfold typeBefore
  by_cases hpos : 0 < i
  · have hget : lines'[(i - 1).toNat]? = lines[(i - 1).toNat]? := by
      have hlt : (i - 1).toNat < i.toNat := by omega
      rw [← List.getElem?_take_of_lt hlt, h, List.getElem?_take_of_lt hlt]
    rw [pyGet, pyGet, pyIndex_of_nonneg (by omega) (by omega), pyIndex_of_nonneg (by omega) (by omega),
      Option.bind_some, Option.bind_some, hget]
  · simp only [hpos, decide_false, Bool.false_and]

/-- With something to insert the written file is longer than its lines were, and there is again something to
insert: at the first listed line that got a type, the same number now names that type. -/
theorem inserts_again {contents : List Char} {numbers : List Int} (h : ¬Settled contents numbers) :
    (readlines contents).flatten.length < (fix_kr_function isalnum contents numbers).length ∧
      '\r' ∉ fix_kr_function isalnum contents numbers ∧
      ¬Settled (fix_kr_function isalnum contents numbers) numbers := by
  simp only [Settled, not_or, not_exists, not_and, not_le, not_forall, not_lt, Bool.not_eq_true] at h
  obtain ⟨hlow, n, hn, hle, htype⟩ := h
  obtain ⟨T, hT, hinside, -, hwritten⟩ := fix_kr_function_spec isalnum contents hlow
  obtain ⟨i, hi⟩ := pyIndex_isSome (show -((readlines contents).length : Int) ≤ n - 1 by
    have := hlow n hn
    omega) (by omega)
  have hTi : T i ≠ [] := (hT i).2 ⟨n, hn, hi, htype⟩
  have hreturn : '\r' ∉ (readlines contents).flatten := by
    rw [readlines, flatten_splitLines]
    exact not_mem_universal contents
  rw [hwritten fun hall => hTi (hall i)]
  have hreturn' := not_mem_glued T hreturn
  have hlines : readlines (FixKr.glued T (readlines contents)).flatten = spread T (readlines contents) := by
    rw [readlines, universal_of_not_mem hreturn', ← flatten_spread]
    exact splitLines_flatten (isLines_spread _ _ (isLines_splitLines _))
  refine ⟨(glued_longer _ _).2 ⟨i, hinside i hTi, hTi⟩, hreturn', ?_⟩
  have hlen := length_le_spread T (readlines contents)
  rw [Settled, hlines]
  rintro (⟨m, hm, hmle⟩ | hall)
  · have := hlow m hm
    omega
  by_cases hneg : ∃ m ∈ numbers, m ≤ 0
  · -- a number below one is never checked for a type before its line
    obtain ⟨m, hm, hm0⟩ := hneg
    rcases hall m hm with hbeyond | htrue
    · omega
    · rw [typeBefore_low _ (by omega)] at htrue
      exact Bool.false_ne_true htrue
  · push Not at hneg
    obtain ⟨m, ⟨hm, hmle, hmtype⟩, hleast⟩ := exists_first hneg ⟨n, hn, hle, htype⟩
    -- no type is put before the lines above line `m`
    have hnone : ∀ j < (m - 1).toNat, T j = [] := by
      intro j hj
      by_contra hne
      obtain ⟨k, hk, hindex, hktype⟩ := (hT j).1 hne
      have hkpos := hneg k hk
      have hkj := pyIndex_eq_some hindex
      have := hleast k hk (by omega) hktype
      omega
    have hbefore : typeBefore (spread T (readlines contents)) (m - 1) = typeBefore (readlines contents) (m - 1) :=
      typeBefore_congr (spread_take T _ _ hnone) (by omega) (by omega)
    rcases hall m hm with hbeyond | htrue
    · omega
    · rw [hbefore, hmtype] at htrue
      exact Bool.false_ne_true htrue

/-- Running the fixer twice changes nothing more only when the first run changes nothing. -/
theorem settled_of_again {contents : List Char} {numbers : List Int}
    (h : fix_kr_function isalnum (fix_kr_function isalnum contents numbers) numbers =
      fix_kr_function isalnum contents numbers) : Settled contents numbers := by
  by_contra hnot
  obtain ⟨-, hreturn, hagain⟩ := inserts_again isalnum hnot
  have hlonger := (inserts_again isalnum hagain).1
  rw [h, readlines, universal_of_not_mem hreturn, flatten_splitLines] at hlonger
  exact lt_irrefl _ hlonger

end Run

/-- The fixer is safe exactly where it has nothing to insert. -/
theorem fix_kr_function_iff (isalnum : Char → Bool) (contents : List Char) (numbers : List Int) :
    Safe isalnum contents numbers ↔ Settled contents numbers := by
  constructor
  · exact fun h => settled_of_again isalnum h.again
  · intro h
    have hsame := unchanged_of_settled isalnum h
    refine ⟨⟨fun _ => none, by simp, ?_, by simp⟩, by rw [hsame, hsame]⟩
    rw [hsame]
    exact (spread_nil _).symm

/-- A file that begins with a function without a type. -/
def untyped : List Char := ['f', '(', ')', '\n', '{', '\n', '}', '\n']

/-- A first line gets a type in every run: there is no line before it to look at. -/
theorem fix_kr_function_first_line :
    fix_kr_function Char.isAlphanum untyped [1] = ReturnType.void.line ++ untyped ∧
      fix_kr_function Char.isAlphanum (ReturnType.void.line ++ untyped) [1] =
        ReturnType.void.line ++ (ReturnType.void.line ++ untyped) ∧
      ¬Safe Char.isAlphanum untyped [1] := by
  have hone : fix_kr_function Char.isAlphanum untyped [1] = ReturnType.void.line ++ untyped := by decide
  have htwo : fix_kr_function Char.isAlphanum (ReturnType.void.line ++ untyped) [1] =
      ReturnType.void.line ++ (ReturnType.void.line ++ untyped) := by decide
  refine ⟨hone, htwo, fun h => ?_⟩
  have hagain := h.again
  rw [hone, htwo] at hagain
  exact absurd (congrArg List.length hagain) (by decide)

end BsdKernel.FixKr
