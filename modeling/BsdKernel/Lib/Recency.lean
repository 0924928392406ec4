import Mathlib.Data.Finset.Card
import Mathlib.Data.List.Nodup
import Mathlib.Logic.Function.Basic
/-!
# Caches in order of use

A list of cells, the one used last in front, in which cells are moved to the front and the last one is taken for a new key. A
key that was asked for still has its cell (`Kept`), unless as many other keys were asked for since as there are cells.
-/

namespace BsdKernel.Lib

variable {α K : Type*} [DecidableEq α] [DecidableEq K]

/-! ## The order -/

/-- `a` is moved to the front. -/
def touch (a : α) (l : List α) : List α := a :: l.erase a

/-- The elements in front of `a`. -/
def ahead (a : α) : List α → List α
  | [] => []
  | b :: l => if b = a then [] else b :: ahead a l

section Order
variable {a b x : α} {l : List α}

theorem mem_touch (ha : a ∈ l) : b ∈ touch a l ↔ b ∈ l := by
  unfold touch
  by_cases hb : b = a
  · simp [hb, ha]
  · simp [hb, List.mem_erase_of_ne hb]

theorem nodup_touch (hl : l.Nodup) : (touch a l).Nodup := List.nodup_cons.2 ⟨hl.not_mem_erase, hl.erase a⟩

@[simp] theorem ahead_touch_self : ahead a (touch a l) = [] := if_pos rfl

theorem mem_ahead_erase (hb : b ≠ a) (hx : x ∈ ahead b (l.erase a)) : x ∈ ahead b l := by
  induction l with
  | nil => exact hx
  | cons c l ih =>
    by_cases hc : c = a
    · rw [hc, List.erase_cons_head] at hx
      rw [hc, ahead, if_neg hb.symm]
      exact List.mem_cons_of_mem _ hx
    · rw [List.erase_cons_tail (by simpa using hc), ahead] at hx
      rw [ahead]
      split at hx
      · cases hx
      · rename_i hcb
        rw [if_neg hcb]
        exact (List.mem_cons.1 hx).elim (fun h => h ▸ List.mem_cons_self) fun h => List.mem_cons_of_mem _ (ih h)

theorem mem_ahead_touch (hb : b ≠ a) (hx : x ∈ ahead b (touch a l)) : x = a ∨ x ∈ ahead b l := by
  rw [touch, ahead, if_neg hb.symm] at hx
  exact (List.mem_cons.1 hx).imp id (mem_ahead_erase hb)

theorem ahead_last (hl : l.Nodup) (ha : l.getLast? = some a) : l = ahead a l ++ [a] := by
  induction l with
  | nil => cases ha
  | cons b l ih =>
    cases l with
    | nil =>
      obtain rfl : b = a := by simpa using ha
      simp [ahead]
    | cons c l =>
      have hlast : (c :: l).getLast? = some a := by simpa using ha
      have hb : b ≠ a := fun h => (List.nodup_cons.1 hl).1 (h ▸ List.mem_of_getLast? hlast)
      rw [ahead, if_neg hb, List.cons_append, ← ih (List.nodup_cons.1 hl).2 hlast]

end Order

/-! ## What was asked for -/

/-- The other keys asked for since `k` was asked for first; the last request is in front. -/
def since (k : K) : List K → Finset K
  | [] => ∅
  | k' :: asked => if k ∈ asked then (if k' = k then since k asked else insert k' (since k asked)) else ∅

section Since
variable {k k' : K} {asked : List K}

theorem since_of_notMem (h : k ∉ asked) : since k asked = ∅ := by
  cases asked with
  | nil => rfl
  | cons k' asked => exact if_neg fun hk => h (List.mem_cons_of_mem _ hk)

theorem since_subset : since k asked ⊆ since k (k' :: asked) := by
  rw [since]
  split
  · split
    · exact subset_rfl
    · exact Finset.subset_insert ..
  · rename_i h
    rw [since_of_notMem h]

theorem mem_since (h : k ∈ asked) (hne : k' ≠ k) : k' ∈ since k (k' :: asked) := by
  rw [since, if_pos h, if_neg hne]
  exact Finset.mem_insert_self ..

end Since

/-! ## Cells and keys -/

/-- `k` has a cell, and those in front of it have keys asked for since; or `n` other keys were asked for since. -/
def Kept (key : α → Option K) (l : List α) (asked : List K) (n : Nat) (k : K) : Prop :=
  (∃ a, key a = some k ∧ ∀ b ∈ ahead a l, ∃ k' ∈ since k asked, key b = some k') ∨ n ≤ (since k asked).card

section Kept
variable {key key' : α → Option K} {l : List α} {asked : List K} {n : Nat} {k k' : K} {a : α}

theorem Kept.ask (h : Kept key l asked n k) (k' : K) : Kept key l (k' :: asked) n k := by
  refine h.imp ?_ fun hn => hn.trans (Finset.card_le_card since_subset)
  rintro ⟨a, ha, hahead⟩
  refine ⟨a, ha, fun b hb => ?_⟩
  obtain ⟨k'', hk'', hkey⟩ := hahead b hb
  exact ⟨k'', since_subset hk'', hkey⟩

theorem Kept.front (h : key a = some k) : Kept key (touch a l) asked n k := .inl ⟨a, h, by simp⟩

theorem Kept.hit (h : Kept key l asked n k) (hk : k ∈ asked) (ha : key a = some k') : Kept key (touch a l) (k' :: asked) n k := by
  by_cases hkk : k' = k
  · exact .front (hkk ▸ ha)
  · refine (h.ask k').imp_left ?_
    rintro ⟨b, hb, hahead⟩
    refine ⟨b, hb, fun x hx => ?_⟩
    have hba : b ≠ a := by
      rintro rfl
      exact hkk (Option.some.inj (ha.symm.trans hb))
    rcases mem_ahead_touch hba hx with rfl | hx
    · exact ⟨k', mem_since hk hkk, ha⟩
    · exact hahead x hx

/-- The last cell is taken for a key that has none. -/
theorem Kept.miss (h : Kept key l asked n k) (hk : k ∈ asked) (hl : l.Nodup) (hn : l.length = n) (hlast : l.getLast? = some a)
    (hinj : ∀ b c k'', key b = some k'' → key c = some k'' → b = c) (hnone : ∀ b, key b ≠ some k') :
    Kept (Function.update key a (some k')) (touch a l) (k' :: asked) n k := by
  by_cases hkk : k' = k
  · exact .front (by rw [Function.update_self, hkk])
  · rcases h with ⟨b, hb, hahead⟩ | hmany
    · by_cases hba : b = a
      · -- The keys of all other cells were asked for since, and `k'` is one more.
        subst hba
        refine .inr ?_
        have hsplit := ahead_last hl hlast
        have hnodup : (ahead b l).Nodup := (List.nodup_append.1 (hsplit ▸ hl)).1
        have hmaps : ∀ c ∈ (ahead b l).toFinset, (key c).getD k' ∈ (since k asked).erase k' := by
          intro c hc
          obtain ⟨k'', hk'', hkey⟩ := hahead c (List.mem_toFinset.1 hc)
          have hne : k'' ≠ k' := fun h => hnone c (h ▸ hkey)
          simpa [hkey] using ⟨hne, hk''⟩
        have hinjOn : Set.InjOn (fun c => (key c).getD k') (ahead b l).toFinset := by
          intro c hc d hd hcd
          obtain ⟨_, -, hc⟩ := hahead c (List.mem_toFinset.1 hc)
          obtain ⟨_, -, hd⟩ := hahead d (List.mem_toFinset.1 hd)
          simp only [hc, hd, Option.getD_some] at hcd
          exact hinj c d _ hc (hcd ▸ hd)
        have hcard := Finset.card_le_card_of_injOn _ hmaps hinjOn
        have hsub : insert k' ((since k asked).erase k') ⊆ since k (k' :: asked) := by
          rw [since, if_pos hk, if_neg hkk]
          exact Finset.insert_subset_insert _ (Finset.erase_subset ..)
        have hle := Finset.card_le_card hsub
        rw [Finset.card_insert_of_notMem (Finset.notMem_erase _ _)] at hle
        rw [List.toFinset_card_of_nodup hnodup] at hcard
        have hlen := congrArg List.length hsplit
        rw [List.length_append, List.length_singleton] at hlen
        omega
      · refine .inl ⟨b, by rw [Function.update_of_ne hba]; exact hb, fun x hx => ?_⟩
        rcases mem_ahead_touch hba hx with rfl | hx
        · exact ⟨k', mem_since hk hkk, Function.update_self ..⟩
        · by_cases hxa : x = a
          · subst hxa
            exact ⟨k', mem_since hk hkk, Function.update_self ..⟩
          · obtain ⟨k'', hk'', hkey⟩ := hahead x hx
            exact ⟨k'', since_subset hk'', by rw [Function.update_of_ne hxa]; exact hkey⟩
    · exact .inr (hmany.trans (Finset.card_le_card since_subset))

end Kept

end BsdKernel.Lib
