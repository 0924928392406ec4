import Mathlib.Data.List.DropRight
import Mathlib.Tactic
/-!
# Lines of text

The string operations the maintenance scripts use, on lists of characters:
`str.isspace`, `str.strip`, the words of a line, and C text without its comments.
-/

namespace BsdKernel.Scripts

abbrev Line := List Char

/-- `str.isspace` of one character, which `\s` of a pattern matches too. -/
def isspace (c : Char) : Bool :=
  let n := c.toNat
  (9 ≤ n && n ≤ 13) || (28 ≤ n && n ≤ 32) || n == 0x85 || n == 0xa0 || n == 0x1680 || (0x2000 ≤ n && n ≤ 0x200a) ||
    n == 0x2028 || n == 0x2029 || n == 0x202f || n == 0x205f || n == 0x3000

/-- `str.strip`. -/
def strip (l : Line) : Line := (l.dropWhile isspace).rdropWhile isspace

/-- The words of a line: its longest runs of characters that are not blank. -/
def words : Line → List Line
  | [] => []
  | [c] => if isspace c then [] else [[c]]
  | c :: d :: cs =>
    if isspace c then words (d :: cs)
    else if isspace d then [c] :: words (d :: cs)
    else
      match words (d :: cs) with
      | [] => [[c]]
      | w :: ws => (c :: w) :: ws

/-- The last word of a line. -/
def lastWord (l : Line) : Line := (strip l).rtakeWhile fun c => !isspace c

/-- A line, stripped, ends with its last word. -/
theorem lastWord_suffix (l : Line) : lastWord l <:+ strip l := List.rtakeWhile_suffix _ _

/-! ## The lines of a file -/

/-- Reading in text mode: each way to end a line becomes a newline. -/
def universal : List Char → List Char
  | '\r' :: '\n' :: cs => '\n' :: universal cs
  | '\r' :: cs => '\n' :: universal cs
  | c :: cs => c :: universal cs
  | [] => []

def splitLines : List Char → List Line
  | [] => []
  | c :: cs =>
    if c = '\n' then [c] :: splitLines cs
    else
      match splitLines cs with
      | [] => [[c]]
      | l :: ls => (c :: l) :: ls

/-- `readlines`: the lines of a file with their newlines. -/
def readlines (contents : List Char) : List Line := splitLines (universal contents)

/-- Lines as `readlines` gives them: a newline ends each of them, but perhaps the last. -/
def IsLines : List Line → Prop
  | [] => True
  | l :: ls => ((∃ l', l = l' ++ ['\n'] ∧ '\n' ∉ l') ∨ ls = [] ∧ l ≠ [] ∧ '\n' ∉ l) ∧ IsLines ls

theorem not_mem_universal (cs : List Char) : '\r' ∉ universal cs := by
  fun_induction universal cs with
  | case1 cs ih => simpa using ih
  | case2 cs _ ih => simpa using ih
  | case3 c cs _ hc ih =>
    simp only [List.mem_cons, not_or]
    exact ⟨fun h => hc h.symm, ih⟩
  | case4 => simp

theorem universal_of_not_mem {cs : List Char} (h : '\r' ∉ cs) : universal cs = cs := by
  fun_induction universal cs <;> simp_all

theorem flatten_splitLines (cs : List Char) : (splitLines cs).flatten = cs := by
  fun_induction splitLines cs <;> simp_all

theorem splitLines_full (l cs : List Char) (h : '\n' ∉ l) :
    splitLines (l ++ '\n' :: cs) = (l ++ ['\n']) :: splitLines cs := by
  induction l with
  | nil => simp [splitLines]
  | cons c l ih =>
    simp only [List.mem_cons, not_or] at h
    rw [List.cons_append, splitLines, if_neg (Ne.symm h.1), ih h.2, List.cons_append]

theorem splitLines_last (l : List Char) (hl : l ≠ []) (h : '\n' ∉ l) : splitLines l = [l] := by
  induction l with
  | nil => exact absurd rfl hl
  | cons c l ih =>
    simp only [List.mem_cons, not_or] at h
    rw [splitLines, if_neg (Ne.symm h.1)]
    cases l with
    | nil => rfl
    | cons d l => rw [ih (List.cons_ne_nil _ _) h.2]

theorem isLines_splitLines (cs : List Char) : IsLines (splitLines cs) := by
  fun_induction splitLines cs with
  | case1 => exact trivial
  | case2 cs ih => exact ⟨.inl ⟨[], rfl, by simp⟩, ih⟩
  | case3 c cs hc hnil ih => exact ⟨.inr ⟨rfl, by simp, by simpa using Ne.symm hc⟩, trivial⟩
  | case4 c cs hc l ls hcons ih =>
    rw [hcons] at ih
    refine ⟨?_, ih.2⟩
    rcases ih.1 with ⟨l', rfl, hl'⟩ | ⟨hls, hl, hn⟩
    · exact .inl ⟨c :: l', rfl, by simpa using ⟨Ne.symm hc, hl'⟩⟩
    · exact .inr ⟨hls, by simp, by simpa using ⟨Ne.symm hc, hn⟩⟩

theorem splitLines_flatten {ls : List Line} (h : IsLines ls) : splitLines ls.flatten = ls := by
  induction ls with
  | nil => rfl
  | cons l ls ih =>
    rcases h.1 with ⟨l', rfl, hl'⟩ | ⟨rfl, hl, hn⟩
    · rw [List.flatten_cons, List.append_assoc, List.singleton_append, splitLines_full _ _ hl', ih h.2]
    · simpa using splitLines_last l hl hn

/-! ## C text -/

def isIdStart (c : Char) : Bool := ('a' ≤ c && c ≤ 'z') || ('A' ≤ c && c ≤ 'Z') || c == '_'

def isIdChar (c : Char) : Bool := isIdStart c || ('0' ≤ c && c ≤ '9')

/-- Where a place of a C text is. -/
inductive Mode where
  | code
  | comment
  | quoted (q : Char)

/-- C text with each comment made a blank and string and character literals emptied. -/
def plain : Mode → List Char → List Char
  | .code, '/' :: '*' :: cs => plain .comment cs
  | .code, c :: cs => c :: plain (if c == '"' || c == '\'' then .quoted c else .code) cs
  | .comment, '*' :: '/' :: cs => ' ' :: plain .code cs
  | .comment, _ :: cs => plain .comment cs
  | .quoted q, '\\' :: _ :: cs => plain (.quoted q) cs
  | .quoted q, c :: cs => if c == q then c :: plain .code cs else plain (.quoted q) cs
  | _, [] => []

/-- The text up to the bracket that closes the `depth` open ones, and the text behind it. -/
def bracketed (opening closing : Char) : Nat → List Char → Option (List Char × List Char)
  | _, [] => none
  | depth, c :: cs =>
    if c == closing && depth ≤ 1 then some ([], cs)
    else
      (bracketed opening closing (if c == opening then depth + 1 else if c == closing then depth - 1 else depth)
        cs).map fun r => (c :: r.1, r.2)

/-- The pattern `^[a-zA-Z_][a-zA-Z0-9_]*\s*\(`. -/
def looksLikeFunction : Line → Bool
  | [] => false
  | c :: cs => isIdStart c && ((cs.dropWhile isIdChar).dropWhile isspace).head? == some '('

/-- Between the parameters and the body stand parameter declarations or nothing. -/
def parameters (between : List Char) : Bool :=
  between.isEmpty || (between.head? != some ';' && between.getLast? == some ';')

/-- The text behind the parameters of a name at the beginning of the text. -/
def behindParameters (text : List Char) : Option (List Char) :=
  (bracketed '(' ')' 1 ((text.dropWhile (· != '(')).drop 1)).map Prod.snd

/-- The lines begin with a function definition: a name and its parameters, and then a body. -/
def beginsDefinition : List Line → Bool
  | [] => false
  | l :: lines =>
    looksLikeFunction (strip l) &&
      match behindParameters (plain .code (l :: lines).flatten) with
      | none => false
      | some tail => tail.contains '{' && parameters (strip (tail.takeWhile (· != '{')))

theorem mem_of_looksLikeFunction {l : Line} (h : looksLikeFunction l = true) : '(' ∈ l := by
  match l with
  | c :: cs =>
    simp only [looksLikeFunction, Bool.and_eq_true, beq_iff_eq] at h
    have hmem := List.mem_of_mem_head? h.2
    exact List.mem_cons_of_mem _ ((List.dropWhile_suffix _).mem ((List.dropWhile_suffix _).mem hmem))

end BsdKernel.Scripts
