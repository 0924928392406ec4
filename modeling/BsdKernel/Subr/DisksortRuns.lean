import BsdKernel.Lib.Trace
import BsdKernel.Subr.Disksort
import Mathlib.Data.List.Nodup
import Mathlib.Data.List.Perm.Basic
import Mathlib.Logic.Function.Basic
/-!
# Runs of the disk request queue

A `Trace` is a queue with the history of its requests: every request in the
order of arrival, those the driver has taken, and for each address the arrival
number of the request last queued there and whether it asked for `B_ORDER`.
`disksort` reads none of the history.

Requests without `B_ORDER` only: `elevator_runs`. After the head the queue is
two sorted runs, and `disksort` keeps it so.
-/

namespace BsdKernel.Disksort

open BsdKernel.Lib

structure Trace where
  q : Queue
  inserted : List Buf
  removed : List Buf
  arrived : Nat → Nat
  asked : Nat → Bool

inductive Op where
  | insert (bp : Buf)
  | remove
deriving DecidableEq, Repr

/-- Before the first request: `bzero`ed queue head, no history. -/
def Trace.init : Trace := ⟨⟨[], none⟩, [], [], fun _ => 0, fun _ => false⟩

def step (t : Trace) : Op → Trace
  | .insert bp =>
    { q := disksort t.q bp
      inserted := t.inserted ++ [bp]
      removed := t.removed
      arrived := Function.update t.arrived bp.addr t.inserted.length
      asked := Function.update t.asked bp.addr bp.ordered }
  | .remove => { t with q := removeHead t.q, removed := t.removed ++ t.q.bActf.head?.toList }

/-- A buf is handed to `disksort` only while it is not on the queue. -/
def Fresh (t : Trace) : Op → Prop
  | .insert bp => bp.addr ∉ t.q.bActf.map Buf.addr
  | .remove => True

instance (t : Trace) (op : Op) : Decidable (Fresh t op) := by
  cases op <;> unfold Fresh <;> infer_instance

/-! ## Where a request lands -/

/-- The chain with `bp` inserted after the cursor. -/
def Cursor.place (c : Cursor) (bp : Buf) : List Buf := c.ahead.reverse ++ c.ap :: bp :: c.avForw

theorem disksort_cons {q : Queue} {bp ap : Buf} {rest : List Buf} (h : q.bActf = ap :: rest) :
    disksort q bp = insertAfter q bp (position bp ap rest) := by
  simp only [disksort, h]

theorem bActf_disksort_cons {q : Queue} {bp ap : Buf} {rest : List Buf} (h : q.bActf = ap :: rest) :
    (disksort q bp).bActf = (position bp ap rest).place bp := by
  rw [disksort_cons h]; rfl

theorem bActf_disksort_nil {q : Queue} {bp : Buf} (h : q.bActf = []) : (disksort q bp).bActf = [bp] := by
  simp only [disksort, h]

theorem addrs_position (bp ap : Buf) (rest : List Buf) :
    (position bp ap rest).chain.map Buf.addr = (ap :: rest).map Buf.addr := by
  have hskip : (if ap.ordered then skipOrdered [] ap rest else ⟨[], ap, rest⟩ : Cursor).chain = ap :: rest := by
    split
    · rw [chain_skipOrdered]; rfl
    · rfl
  unfold position
  generalize (if ap.ordered then skipOrdered [] ap rest else ⟨[], ap, rest⟩ : Cursor) = c at hskip
  simp only
  split
  · rw [hskip]
  · split
    · obtain ⟨last, hl, he⟩ := markOrdered_eq c.ahead c.ap c.avForw
      have hd : (c.ap :: c.avForw).dropLast ++ [last] = c.ap :: c.avForw := List.dropLast_append_getLast? _ hl
      have hc : c.ahead.reverse ++ ((c.ap :: c.avForw).dropLast ++ [last]) = ap :: rest := by rw [hd]; exact hskip
      rw [he, ← hc]
      simp [Cursor.chain, Function.comp_def]
    · rw [chain_elevator, hskip]

theorem disksort_addrs (q : Queue) (bp : Buf) :
    ∃ l₁ l₂, (disksort q bp).bActf = l₁ ++ bp :: l₂ ∧ (l₁ ++ l₂).map Buf.addr = q.bActf.map Buf.addr := by
  cases h : q.bActf with
  | nil => exact ⟨[], [], bActf_disksort_nil h, rfl⟩
  | cons ap rest =>
    have hc := addrs_position bp ap rest
    generalize hp : position bp ap rest = c at hc
    refine ⟨c.ahead.reverse ++ [c.ap], c.avForw, ?_, ?_⟩
    · rw [bActf_disksort_cons h, hp]; simp [Cursor.place]
    · rw [← hc]; simp [Cursor.chain]

theorem nodup_disksort {q : Queue} {bp : Buf} (hn : (q.bActf.map Buf.addr).Nodup)
    (hf : bp.addr ∉ q.bActf.map Buf.addr) : ((disksort q bp).bActf.map Buf.addr).Nodup := by
  obtain ⟨l₁, l₂, h, he⟩ := disksort_addrs q bp
  rw [← he] at hn hf
  rw [h]
  rw [List.map_append] at hn hf
  rw [List.map_append, List.map_cons, List.nodup_middle, List.nodup_cons]
  exact ⟨hf, hn⟩

/-! ## The tail pointer -/

/-- `b_actl` is the last request whenever there is one. -/
def TailOk (q : Queue) : Prop := ∀ b, q.bActf.getLast? = some b → q.bActl = some b.addr

theorem tailOk_disksort {q : Queue} {bp : Buf} (hn : (q.bActf.map Buf.addr).Nodup) (ht : TailOk q) :
    TailOk (disksort q bp) := by
  cases h : q.bActf with
  | nil =>
    intro b hb
    rw [bActf_disksort_nil h] at hb
    simp only [disksort, h]
    simp_all
  | cons ap rest =>
    have hc := addrs_position bp ap rest
    rw [h] at hn
    rw [disksort_cons h]
    generalize position bp ap rest = c at hc
    -- The address of the old last request is that of the cursor exactly when nothing follows the cursor.
    have hlast : q.bActl = (c.chain.map Buf.addr).getLast? := by
      rw [hc, List.getLast?_map]
      obtain ⟨b, hb⟩ : ∃ b, (ap :: rest).getLast? = some b := by simp [List.getLast?_cons]
      rw [hb, ht b (h ▸ hb)]; rfl
    rw [← hc] at hn
    rcases hav : c.avForw.getLast? with _ | w
    · have hnil : c.avForw = [] := by simpa using hav
      intro b hb
      simp only [insertAfter, hnil] at hb ⊢
      simp only [Cursor.chain, hnil, List.map_append, List.map_cons, List.map_nil,
        List.getLast?_append, List.getLast?_singleton] at hlast
      simp only [Option.some_or] at hlast
      rw [if_pos hlast]
      simp at hb
      rw [hb]
    · intro b hb
      have hw : q.bActl = some w.addr := by
        rw [hlast]; simp [Cursor.chain, List.getLast?_cons, hav]
      have hbw : b = w := by
        simp only [insertAfter, List.getLast?_append, List.getLast?_cons, hav] at hb
        simpa using hb.symm
      have hne : c.ap.addr ≠ w.addr := by
        have hmem : w ∈ c.avForw := List.mem_of_getLast? hav
        simp only [Cursor.chain, List.map_append, List.map_cons, List.nodup_append, List.nodup_cons] at hn
        intro he
        exact hn.2.1.1 (he ▸ List.mem_map_of_mem hmem)
      simp only [insertAfter, hw, Option.some.injEq, hbw]
      rw [if_neg (Ne.symm hne)]

theorem tailOk_removeHead {q : Queue} (ht : TailOk q) : TailOk (removeHead q) := by
  intro b hb
  apply ht
  cases h : q.bActf with
  | nil => simp [removeHead, h] at hb
  | cons a l =>
    simp only [removeHead, h, List.tail_cons] at hb
    simp [List.getLast?_cons, hb]

/-! ## Two sorted runs -/

/-- Nondecreasing in (cylinder, block number). -/
def keyLe (a b : Buf) : Prop := a.bCylin < b.bCylin ∨ (a.bCylin = b.bCylin ∧ a.bBlkno ≤ b.bBlkno)

/-- The chain behind its head is two runs, each sorted by `keyLe`: the first at
cylinders not below the head's, the second at cylinders below it. -/
def TwoRuns (l : List Buf) : Prop :=
  ∀ h rest, l = h :: rest → ∃ r₁ r₂, rest = r₁ ++ r₂ ∧ r₁.Pairwise keyLe ∧ r₂.Pairwise keyLe ∧
    (∀ x ∈ r₁, h.bCylin ≤ x.bCylin) ∧ ∀ x ∈ r₂, x.bCylin < h.bCylin

theorem goesBefore_iff (a b : Buf) : goesBefore a b = true ↔ ¬keyLe b a := by
  simp only [goesBefore, keyLe, Bool.or_eq_true, Bool.and_eq_true, decide_eq_true_eq, beq_iff_eq]
  omega

theorem keyLe_of_goesBefore {a b : Buf} (h : goesBefore a b = true) : keyLe a b := by
  rw [goesBefore_iff] at h
  simp only [keyLe] at h ⊢
  omega

theorem keyLe_trans {a b c : Buf} (h₁ : keyLe a b) (h₂ : keyLe b c) : keyLe a c := by
  simp only [keyLe] at *
  omega

/-- `bp` inserted in front of the first request it goes before. -/
def insertKey (bp : Buf) : List Buf → List Buf
  | [] => [bp]
  | n :: l => if goesBefore bp n then bp :: n :: l else n :: insertKey bp l

theorem mem_insertKey {bp x : Buf} {l : List Buf} : x ∈ insertKey bp l ↔ x = bp ∨ x ∈ l := by
  induction l with
  | nil => simp [insertKey]
  | cons n l ih =>
    rw [insertKey]
    split
    · simp
    · simp only [List.mem_cons, ih]; tauto

theorem sorted_insertKey {bp : Buf} {l : List Buf} (h : l.Pairwise keyLe) : (insertKey bp l).Pairwise keyLe := by
  induction l with
  | nil => simp [insertKey]
  | cons n l ih =>
    obtain ⟨hn, hl⟩ := List.pairwise_cons.1 h
    rw [insertKey]
    split
    · rename_i hb
      have hbn := keyLe_of_goesBefore hb
      refine List.pairwise_cons.2 ⟨fun x hx => ?_, h⟩
      rcases List.mem_cons.1 hx with rfl | hx
      · exact hbn
      · exact keyLe_trans hbn (hn x hx)
    · rename_i hb
      refine List.pairwise_cons.2 ⟨fun x hx => ?_, ih hl⟩
      rcases mem_insertKey.1 hx with rfl | hx
      · simpa [goesBefore_iff] using hb
      · exact hn x hx

theorem place_searchSecond (bp : Buf) (ahead : List Buf) (ap : Buf) (r : List Buf) :
    (searchSecond bp ahead ap r).place bp = ahead.reverse ++ ap :: insertKey bp r := by
  induction r generalizing ahead ap with
  | nil => rfl
  | cons n r ih =>
    rw [searchSecond, insertKey]
    split
    · rfl
    · rw [ih]; simp

/-- The first list is searched up to its end: the inversion in front of `r₂`. -/
theorem place_searchFirst (bp : Buf) (ahead : List Buf) (ap : Buf) (r₁ r₂ : List Buf)
    (hs : r₁.Pairwise keyLe) (h₁ : ∀ x ∈ r₁, ap.bCylin ≤ x.bCylin) (h₂ : ∀ x ∈ r₂, x.bCylin < ap.bCylin) :
    (searchFirst bp ahead ap (r₁ ++ r₂)).place bp = ahead.reverse ++ ap :: (insertKey bp r₁ ++ r₂) := by
  induction r₁ generalizing ahead ap with
  | nil =>
    cases r₂ with
    | nil => rfl
    | cons n r => rw [List.nil_append, searchFirst, if_pos (by simp [h₂ n (by simp)])]; rfl
  | cons n r₁ ih =>
    have hn := h₁ n (by simp)
    obtain ⟨hle, hs⟩ := List.pairwise_cons.1 hs
    have hinv : decide (n.bCylin < ap.bCylin) = false := by simpa using hn
    rw [List.cons_append, searchFirst, insertKey, hinv, Bool.false_or]
    split
    · rfl
    · rw [ih (ap :: ahead) n hs (fun x hx => ?_) (fun x hx => Int.lt_of_lt_of_le (h₂ x hx) hn)]
      · simp
      · have := hle x hx
        simp only [keyLe] at this
        omega

/-- The inversion is found in front of `r₂`, and the second list searched. -/
theorem place_findInversion (bp : Buf) (ahead : List Buf) (ap : Buf) (r₁ r₂ : List Buf)
    (hs : r₁.Pairwise keyLe) (h₁ : ∀ x ∈ r₁, ap.bCylin ≤ x.bCylin) (h₂ : ∀ x ∈ r₂, x.bCylin < ap.bCylin) :
    (findInversion bp ahead ap (r₁ ++ r₂)).place bp = ahead.reverse ++ ap :: (r₁ ++ insertKey bp r₂) := by
  induction r₁ generalizing ahead ap with
  | nil =>
    cases r₂ with
    | nil => rfl
    | cons n r =>
      rw [List.nil_append, findInversion, if_pos (by simpa using h₂ n (by simp)), place_searchSecond]
      rfl
  | cons n r₁ ih =>
    have hn := h₁ n (by simp)
    obtain ⟨hle, hs⟩ := List.pairwise_cons.1 hs
    rw [List.cons_append, findInversion, if_neg (by omega)]
    rw [ih (ap :: ahead) n hs (fun x hx => ?_) (fun x hx => Int.lt_of_lt_of_le (h₂ x hx) hn)]
    · simp
    · have := hle x hx
      simp only [keyLe] at this
      omega

theorem position_unordered {bp ap : Buf} {rest : List Buf} (hb : bp.ordered = false) (ha : ap.ordered = false) :
    position bp ap rest = elevator bp ⟨[], ap, rest⟩ := by
  simp [position, hb, ha]

/-- Without `B_ORDER`, `disksort` sorts the request into the first run or into
the second, by its cylinder and the head's. -/
theorem twoRuns_disksort {q : Queue} {bp : Buf} (hb : bp.ordered = false) (hq : ∀ b ∈ q.bActf, b.ordered = false)
    (h : TwoRuns q.bActf) : TwoRuns (disksort q bp).bActf := by
  cases hl : q.bActf with
  | nil =>
    intro x rest he
    rw [bActf_disksort_nil hl] at he
    simp only [List.cons.injEq] at he
    exact ⟨[], [], by simp [← he.2], by simp, by simp, by simp, by simp⟩
  | cons ap rest =>
    obtain ⟨r₁, r₂, rfl, hs₁, hs₂, h₁, h₂⟩ := h ap rest hl
    rw [bActf_disksort_cons hl, position_unordered hb (hq ap (by simp [hl])), elevator]
    split
    · rename_i hlt
      rw [place_findInversion bp [] ap r₁ r₂ hs₁ h₁ h₂]
      rintro x l ⟨⟩
      refine ⟨r₁, insertKey bp r₂, rfl, hs₁, sorted_insertKey hs₂, h₁, fun x hx => ?_⟩
      rcases mem_insertKey.1 hx with rfl | hx
      · exact hlt
      · exact h₂ x hx
    · rename_i hge
      rw [place_searchFirst bp [] ap r₁ r₂ hs₁ h₁ h₂]
      rintro x l ⟨⟩
      refine ⟨insertKey bp r₁, r₂, rfl, sorted_insertKey hs₁, hs₂, fun x hx => ?_, h₂⟩
      rcases mem_insertKey.1 hx with rfl | hx
      · simpa using hge
      · exact h₁ x hx

/-- Taking the head off: the first run goes on, or the second becomes the first. -/
theorem twoRuns_removeHead {q : Queue} (h : TwoRuns q.bActf) : TwoRuns (removeHead q).bActf := by
  intro x rest he
  cases hl : q.bActf with
  | nil => simp [removeHead, hl] at he
  | cons ap l =>
    obtain ⟨r₁, r₂, rfl, hs₁, hs₂, h₁, h₂⟩ := h ap l hl
    simp only [removeHead, hl, List.tail_cons] at he
    cases r₁ with
    | nil =>
      simp only [List.nil_append] at he
      subst he
      obtain ⟨hle, hs⟩ := List.pairwise_cons.1 hs₂
      refine ⟨rest, [], by simp, hs, by simp, fun y hy => ?_, by simp⟩
      have := hle y hy
      simp only [keyLe] at this
      omega
    | cons a r₁ =>
      simp only [List.cons_append, List.cons.injEq] at he
      obtain ⟨rfl, rfl⟩ := he
      obtain ⟨hle, hs⟩ := List.pairwise_cons.1 hs₁
      refine ⟨r₁, r₂, rfl, hs, hs₂, fun y hy => ?_, fun y hy => Int.lt_of_lt_of_le (h₂ y hy) (h₁ a (by simp))⟩
      have := hle y hy
      simp only [keyLe] at this
      omega

/-! ## Runs without ordered requests -/

/-- The request carries no `B_ORDER`. -/
def Unordered : Op → Prop
  | .insert bp => bp.ordered = false
  | .remove => True

instance (op : Op) : Decidable (Unordered op) := by cases op <;> unfold Unordered <;> infer_instance

/-- The invariant of runs without `B_ORDER`. -/
structure ElevatorInv (t : Trace) : Prop where
  plain : ∀ b ∈ t.q.bActf, b.ordered = false
  nodup : (t.q.bActf.map Buf.addr).Nodup
  holds : (t.removed ++ t.q.bActf).Perm t.inserted
  tail : TailOk t.q
  runs : TwoRuns t.q.bActf

theorem position_chain_unordered {bp ap : Buf} (rest : List Buf) (hb : bp.ordered = false)
    (ha : ap.ordered = false) : (position bp ap rest).chain = ap :: rest := by
  rw [position_unordered hb ha, chain_elevator]; rfl

theorem disksort_split {q : Queue} {bp : Buf} (hb : bp.ordered = false) (hq : ∀ b ∈ q.bActf, b.ordered = false) :
    ∃ l₁ l₂, (disksort q bp).bActf = l₁ ++ bp :: l₂ ∧ l₁ ++ l₂ = q.bActf := by
  cases h : q.bActf with
  | nil => exact ⟨[], [], bActf_disksort_nil h, rfl⟩
  | cons ap rest =>
    have hc := position_chain_unordered rest hb (hq ap (by simp [h]))
    generalize hp : position bp ap rest = c at hc
    refine ⟨c.ahead.reverse ++ [c.ap], c.avForw, ?_, ?_⟩
    · rw [bActf_disksort_cons h, hp]; simp [Cursor.place]
    · rw [← hc]; simp [Cursor.chain]

theorem elevatorInv_step (t : Trace) (op : Op) (h : ElevatorInv t) (hop : Fresh t op ∧ Unordered op) :
    ElevatorInv (step t op) := by
  cases op with
  | insert bp =>
    obtain ⟨hf, hu⟩ := hop
    obtain ⟨l₁, l₂, he, hl⟩ := disksort_split hu h.plain
    refine ⟨fun b hb => ?_, nodup_disksort h.nodup hf, ?_, tailOk_disksort h.nodup h.tail,
      twoRuns_disksort hu h.plain h.runs⟩
    · simp only [step, he] at hb
      rcases List.mem_append.1 hb with hb | hb
      · exact h.plain b (by rw [← hl]; simp [hb])
      · rcases List.mem_cons.1 hb with rfl | hb
        · exact hu
        · exact h.plain b (by rw [← hl]; simp [hb])
    · have hp := h.holds
      rw [← hl] at hp
      simp only [step, he]
      calc (t.removed ++ (l₁ ++ bp :: l₂)).Perm (bp :: (t.removed ++ (l₁ ++ l₂))) := by
            rw [← List.append_assoc, ← List.append_assoc]; exact List.perm_middle
        _ |>.Perm (bp :: t.inserted) := hp.cons bp
        _ |>.Perm (t.inserted ++ [bp]) := (List.perm_append_singleton bp t.inserted).symm
  | remove =>
    cases hl : t.q.bActf with
    | nil =>
      have he : step t .remove = t := by
        cases t with | mk q ins rem arr ask => cases q; simp_all [step, removeHead]
      rw [he]; exact h
    | cons a l =>
      have hb := h.nodup
      rw [hl] at hb
      refine ⟨fun b hb => h.plain b ?_, ?_, ?_, tailOk_removeHead h.tail, twoRuns_removeHead h.runs⟩
      · rw [hl]; simp only [step, removeHead, hl, List.tail_cons] at hb; simp [hb]
      · simp only [step, removeHead, hl, List.tail_cons]; exact (List.nodup_cons.1 hb).2
      · have hp := h.holds
        simp only [step, removeHead, hl, List.tail_cons, List.head?_cons, Option.toList_some, List.append_assoc,
          List.singleton_append] at hp ⊢
        exact hp

theorem elevatorInv_init : ElevatorInv .init :=
  ⟨by simp [Trace.init], by simp [Trace.init], by simp [Trace.init], by intro b hb; simp [Trace.init] at hb,
    by intro h rest he; simp [Trace.init] at he⟩

/-- The requests queued in `t` that had arrived by the time of `e`. -/
def Trace.since (t e : Trace) : List Buf := t.q.bActf.filter (fun b => t.arrived b.addr < e.inserted.length)

/-- The requests of an earlier moment that are still queued keep their order,
step by step. -/
theorem since_step (e t : Trace) (op : Op) (hi : ElevatorInv t) (hop : Fresh t op ∧ Unordered op)
    (h : (t.since e).Sublist e.q.bActf ∧ e.inserted.length ≤ t.inserted.length) :
    ((step t op).since e).Sublist e.q.bActf ∧ e.inserted.length ≤ (step t op).inserted.length := by
  cases op with
  | insert bp =>
    obtain ⟨hf, hu⟩ := hop
    obtain ⟨l₁, l₂, he, hl⟩ := disksort_split hu hi.plain
    refine ⟨?_, by simp only [step, List.length_append]; omega⟩
    have hsame : (step t (.insert bp)).since e = t.since e := by
      have hold : ∀ b ∈ l₁ ++ l₂, Function.update t.arrived bp.addr t.inserted.length b.addr = t.arrived b.addr := by
        intro b hb
        refine Function.update_of_ne (fun hab => hf ?_) _ _
        rw [← hl, ← hab]
        exact List.mem_map_of_mem hb
      simp only [Trace.since, step, he, ← hl, List.filter_append, List.filter_cons, Function.update_self]
      rw [if_neg (by simpa using h.2)]
      congr 1
      · exact List.filter_congr fun b hb => decide_eq_decide.2 (by rw [← hold b (by simp [hb])])
      · exact List.filter_congr fun b hb => decide_eq_decide.2 (by rw [← hold b (by simp [hb])])
    rw [hsame]
    exact h.1
  | remove =>
    refine ⟨List.Sublist.trans ?_ h.1, h.2⟩
    exact (List.tail_sublist _).filter _

/-- Every run of `disksort` on requests without `B_ORDER` and of head removals:
the queue is what was inserted and not yet removed, each request once, `b_actl`
is its last request, behind the head it is two sorted runs around the head's
cylinder, and the requests of any earlier moment `e` are still in the order
they had then. -/
theorem elevator_runs (ops ops' : List Op)
    (hops : Along step (fun t op => Fresh t op ∧ Unordered op) .init (ops ++ ops')) :
    let e := final step .init ops
    let t := final step e ops'
    (t.removed ++ t.q.bActf).Perm t.inserted ∧ (t.q.bActf.map Buf.addr).Nodup ∧
      (∀ b, t.q.bActf.getLast? = some b → t.q.bActl = some b.addr) ∧ TwoRuns t.q.bActf ∧
      (t.since e).Sublist e.q.bActf := by
  intro e t
  obtain ⟨h₁, h₂⟩ := (along_append step _ _ _ _).1 hops
  have he : ElevatorInv e := final_of_along elevatorInv_step elevatorInv_init h₁
  have ht : ElevatorInv t ∧ (t.since e).Sublist e.q.bActf ∧ e.inserted.length ≤ t.inserted.length := by
    refine final_of_along (I := fun t => ElevatorInv t ∧ (t.since e).Sublist e.q.bActf ∧ _)
      (fun s a hs ha => ⟨elevatorInv_step s a hs.1 ha, since_step e s a hs.1 ha hs.2⟩) ?_ h₂
    exact ⟨he, List.filter_sublist, Nat.le_refl _⟩
  exact ⟨ht.1.holds, ht.1.nodup, ht.1.tail, ht.1.runs, ht.2.1⟩

/-- Cylinders 5, 9, 2 and 7 queued, the head served: 7 and 9 are still ahead of 2. -/
theorem elevator_runs_four :
    let ops : List Op := [.insert ⟨1, 0, 5, 50⟩, .insert ⟨2, 0, 9, 90⟩, .insert ⟨3, 0, 2, 20⟩]
    let e := final step .init ops
    let t := final step e [.insert ⟨4, 0, 7, 70⟩, .remove]
    t.q.bActf.map Buf.addr = [4, 2, 3] ∧ t.q.bActl = some 3 ∧ TwoRuns t.q.bActf ∧ (t.since e).Sublist e.q.bActf := by
  have h := elevator_runs [.insert ⟨1, 0, 5, 50⟩, .insert ⟨2, 0, 9, 90⟩, .insert ⟨3, 0, 2, 20⟩]
    [.insert ⟨4, 0, 7, 70⟩, .remove] (by decide)
  exact ⟨by decide, by decide, h.2.2.2.1, h.2.2.2.2⟩

end BsdKernel.Disksort
