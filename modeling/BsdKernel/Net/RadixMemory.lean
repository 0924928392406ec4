import BsdKernel.Net.RadixInsert
import Mathlib.Data.List.Nodup
/-!
# The memory of a radix tree

Leaves and inner nodes come in pairs, but an inner node may be stored behind a
leaf of another chain. What `rn_delete` relies on when it moves nodes is
`Stored`: behind the leaves of one chain there is exactly one inner node in use,
and behind those of the two root chains there is only the top.
-/

namespace BsdKernel.Radix
open Lib PTree

/-- `S` are the pairs whose second half is in use, `C` the chains of the first halves. -/
structure Stored (S : List Pair) (C : List (List Pair)) : Prop where
  nodup : S.Nodup
  apart : C.flatten.Nodup
  known : ∀ p ∈ S, p ∈ C.flatten
  root : ∀ ch ∈ C, .zeros ∈ ch ∨ .ones ∈ ch → ∀ q ∈ ch, q ∈ S → q = .zeros
  one : ∀ ch ∈ C, ¬(.zeros ∈ ch ∨ .ones ∈ ch) → ∃ p ∈ ch, p ∈ S ∧ ∀ q ∈ ch, q ∈ S → q = p

section Stored
variable {S S' : List Pair} {C C' rest : List (List Pair)} {ch ch' : List Pair} {p s : Pair}

theorem Stored.perm (h : Stored S C) (hS : S'.Perm S) (hC : C'.Perm C) : Stored S' C' := by
  have hmem : ∀ q, q ∈ S' ↔ q ∈ S := fun q => hS.mem_iff
  refine ⟨hS.nodup_iff.2 h.nodup, hC.flatten.nodup_iff.2 h.apart, ?_, ?_, ?_⟩
  · intro q hq
    exact hC.flatten.mem_iff.2 (h.known q ((hmem q).1 hq))
  · intro ch hch hroot q hq hqS
    exact h.root ch (hC.mem_iff.1 hch) hroot q hq ((hmem q).1 hqS)
  · intro ch hch hroot
    obtain ⟨q, hq, hqS, huniq⟩ := h.one ch (hC.mem_iff.1 hch) hroot
    exact ⟨q, hq, (hmem q).2 hqS, fun r hr hrS => huniq r hr ((hmem r).1 hrS)⟩

theorem Stored.permChain (h : Stored S (ch :: rest)) (hp : ch'.Perm ch) : Stored S (ch' :: rest) := by
  have hmem : ∀ q, q ∈ ch' ↔ q ∈ ch := fun q => hp.mem_iff
  have hflat : (ch' :: rest).flatten.Perm (ch :: rest).flatten := by
    rw [List.flatten_cons, List.flatten_cons]
    exact hp.append_right _
  refine ⟨h.nodup, hflat.nodup_iff.2 h.apart, fun q hq => hflat.mem_iff.2 (h.known q hq), ?_, ?_⟩
  · intro c hc hroot
    rcases List.mem_cons.1 hc with rfl | hc
    · simp only [hmem] at hroot ⊢
      exact h.root ch List.mem_cons_self hroot
    · exact h.root c (List.mem_cons_of_mem _ hc) hroot
  · intro c hc hroot
    rcases List.mem_cons.1 hc with rfl | hc
    · simp only [hmem] at hroot ⊢
      exact h.one ch List.mem_cons_self hroot
    · exact h.one c (List.mem_cons_of_mem _ hc) hroot

theorem Stored.join (h : Stored S (ch :: rest)) (hp : p ∉ (ch :: rest).flatten) (hz : p ≠ .zeros)
    (ho : p ≠ .ones) : Stored S ((p :: ch) :: rest) := by
  have hpS : p ∉ S := fun hpS => hp (h.known p hpS)
  have hroots : (Pair.zeros ∈ p :: ch ∨ Pair.ones ∈ p :: ch) ↔ (Pair.zeros ∈ ch ∨ Pair.ones ∈ ch) := by
    simp only [List.mem_cons]
    constructor
    · rintro ((he | he) | (he | he))
      · exact absurd he.symm hz
      · exact .inl he
      · exact absurd he.symm ho
      · exact .inr he
    · rintro (he | he)
      · exact .inl (.inr he)
      · exact .inr (.inr he)
  refine ⟨h.nodup, ?_, ?_, ?_, ?_⟩
  · rw [List.flatten_cons, List.cons_append, List.nodup_cons]
    exact ⟨hp, h.apart⟩
  · intro q hq
    rw [List.flatten_cons, List.cons_append]
    exact List.mem_cons_of_mem _ (h.known q hq)
  · intro c hc hroot
    rcases List.mem_cons.1 hc with rfl | hc
    · intro q hq hqS
      rcases List.mem_cons.1 hq with rfl | hq
      · exact absurd hqS hpS
      · exact h.root ch List.mem_cons_self (hroots.1 hroot) q hq hqS
    · exact h.root c (List.mem_cons_of_mem _ hc) hroot
  · intro c hc hroot
    rcases List.mem_cons.1 hc with rfl | hc
    · obtain ⟨q, hq, hqS, huniq⟩ := h.one ch List.mem_cons_self (hroots.not.1 hroot)
      refine ⟨q, List.mem_cons_of_mem _ hq, hqS, ?_⟩
      intro r hr hrS
      rcases List.mem_cons.1 hr with rfl | hr
      · exact absurd hrS hpS
      · exact huniq r hr hrS
    · exact h.one c (List.mem_cons_of_mem _ hc) hroot

theorem Stored.place (h : Stored S C) (hp : p ∉ C.flatten) (hz : p ≠ .zeros) (ho : p ≠ .ones) :
    Stored (p :: S) ([p] :: C) := by
  have hpS : p ∉ S := fun hpS => hp (h.known p hpS)
  have hother : ∀ c ∈ C, ∀ q ∈ c, q ≠ p := by
    rintro c hc q hq rfl
    exact hp (List.mem_flatten.2 ⟨c, hc, hq⟩)
  refine ⟨List.nodup_cons.2 ⟨hpS, h.nodup⟩, List.nodup_cons.2 ⟨hp, h.apart⟩, ?_, ?_, ?_⟩
  · intro q hq
    rcases List.mem_cons.1 hq with rfl | hq
    · exact List.mem_cons_self
    · exact List.mem_cons_of_mem _ (h.known q hq)
  · intro c hc hroot q hq hqS
    rcases List.mem_cons.1 hc with rfl | hc
    · simp only [List.mem_singleton] at hroot
      rcases hroot with he | he
      · exact absurd he.symm hz
      · exact absurd he.symm ho
    · exact h.root c hc hroot q hq ((List.mem_cons.1 hqS).resolve_left (hother c hc q hq))
  · intro c hc hroot
    rcases List.mem_cons.1 hc with rfl | hc
    · refine ⟨p, List.mem_cons_self, List.mem_cons_self, ?_⟩
      intro r hr _
      exact List.mem_singleton.1 hr
    · obtain ⟨q, hq, hqS, huniq⟩ := h.one c hc hroot
      refine ⟨q, hq, List.mem_cons_of_mem _ hqS, ?_⟩
      intro r hr hrS
      exact huniq r hr ((List.mem_cons.1 hrS).resolve_left (hother c hc r hr))

/-- The pairs with the second half of `p` moved behind `s`. -/
def moved (p s : Pair) (S : List Pair) : List Pair := S.map fun q => if q = p then s else q

theorem mem_moved {q : Pair} (hp : p ∈ S) : q ∈ moved p s S ↔ q = s ∨ q ∈ S ∧ q ≠ p := by
  unfold moved
  rw [List.mem_map]
  constructor
  · rintro ⟨r, hr, rfl⟩
    split
    · exact .inl rfl
    · next hrp => exact .inr ⟨hr, hrp⟩
  · rintro (rfl | ⟨hq, hqp⟩)
    · exact ⟨p, hp, if_pos rfl⟩
    · exact ⟨q, hq, if_neg hqp⟩

theorem nodup_moved (hS : S.Nodup) (hs : s ∉ S) : (moved p s S).Nodup := by
  refine hS.map_on ?_
  intro q hq r hr he
  by_cases hqp : q = p
  · by_cases hrp : r = p
    · rw [hqp, hrp]
    · rw [if_pos hqp, if_neg hrp] at he
      subst he
      exact absurd hr hs
  · by_cases hrp : r = p
    · rw [if_neg hqp, if_pos hrp] at he
      subst he
      exact absurd hq hs
    · rwa [if_neg hqp, if_neg hrp] at he

/-- A leaf goes from a chain of several; the inner node behind it, if any, moves to another of the chain. -/
theorem Stored.unlink (h : Stored S ((p :: ch) :: rest)) (hz : p ≠ .zeros) (ho : p ≠ .ones) (hs : s ∈ ch) :
    (p ∈ S → s ∉ S) ∧ Stored (if p ∈ S then moved p s S else S) (ch :: rest) := by
  have hap := h.apart
  rw [List.flatten_cons, List.cons_append, List.nodup_cons] at hap
  have hsp : s ≠ p := by
    rintro rfl
    exact hap.1 (List.mem_append_left _ hs)
  have hpc : ∀ q ∈ ch, q ≠ p := by
    rintro q hq rfl
    exact hap.1 (List.mem_append_left _ hq)
  have hpr : ∀ c ∈ rest, ∀ q ∈ c, q ≠ p ∧ q ≠ s := by
    intro c hc q hq
    have hqf : q ∈ rest.flatten := List.mem_flatten.2 ⟨c, hc, hq⟩
    constructor
    · rintro rfl
      exact hap.1 (List.mem_append_right _ hqf)
    · rintro rfl
      exact List.disjoint_of_nodup_append hap.2 hs hqf
  have hroots : (Pair.zeros ∈ p :: ch ∨ Pair.ones ∈ p :: ch) ↔ (Pair.zeros ∈ ch ∨ Pair.ones ∈ ch) := by
    simp only [List.mem_cons, show ¬Pair.zeros = p from fun he => hz he.symm,
      show ¬Pair.ones = p from fun he => ho he.symm, false_or]
  have hfree : p ∈ S → s ∉ S := by
    intro hpS hsS
    by_cases hr : Pair.zeros ∈ p :: ch ∨ Pair.ones ∈ p :: ch
    · exact hz (h.root _ List.mem_cons_self hr p List.mem_cons_self hpS)
    · obtain ⟨q, -, -, huniq⟩ := h.one _ List.mem_cons_self hr
      exact hsp ((huniq s (List.mem_cons_of_mem _ hs) hsS).trans (huniq p List.mem_cons_self hpS).symm)
  refine ⟨hfree, ?_⟩
  split
  · next hpS =>
    have hmem : ∀ q, q ∈ moved p s S ↔ q = s ∨ q ∈ S ∧ q ≠ p := fun q => mem_moved hpS
    -- only a chain without root leaves has a node to move
    have hnroot : ¬(Pair.zeros ∈ p :: ch ∨ Pair.ones ∈ p :: ch) :=
      fun hr => hz (h.root _ List.mem_cons_self hr p List.mem_cons_self hpS)
    refine ⟨nodup_moved h.nodup (hfree hpS), hap.2, ?_, ?_, ?_⟩
    · intro q hq
      rcases (hmem q).1 hq with rfl | ⟨hqS, hqp⟩
      · exact List.mem_append_left _ hs
      · have := h.known q hqS
        rw [List.flatten_cons, List.cons_append] at this
        exact (List.mem_cons.1 this).resolve_left hqp
    · intro c hc hroot q hq hqS
      rcases List.mem_cons.1 hc with rfl | hc
      · exact absurd (hroots.2 hroot) hnroot
      · rcases (hmem q).1 hqS with rfl | ⟨hqS, -⟩
        · exact absurd rfl (hpr c hc q hq).2
        · exact h.root c (List.mem_cons_of_mem _ hc) hroot q hq hqS
    · intro c hc hroot
      rcases List.mem_cons.1 hc with rfl | hc
      · refine ⟨s, hs, (hmem s).2 (.inl rfl), ?_⟩
        intro r hr hrS
        rcases (hmem r).1 hrS with rfl | ⟨hrS, hrp⟩
        · rfl
        · obtain ⟨q, -, -, huniq⟩ := h.one _ List.mem_cons_self hnroot
          exact absurd ((huniq r (List.mem_cons_of_mem _ hr) hrS).trans (huniq p List.mem_cons_self hpS).symm) hrp
      · obtain ⟨q, hq, hqS, huniq⟩ := h.one c (List.mem_cons_of_mem _ hc) hroot
        refine ⟨q, hq, (hmem q).2 (.inr ⟨hqS, (hpr c hc q hq).1⟩), ?_⟩
        intro r hr hrS
        rcases (hmem r).1 hrS with rfl | ⟨hrS, -⟩
        · exact absurd rfl (hpr c hc r hr).2
        · exact huniq r hr hrS
  · next hpS =>
    refine ⟨h.nodup, hap.2, ?_, ?_, ?_⟩
    · intro q hq
      have := h.known q hq
      rw [List.flatten_cons, List.cons_append] at this
      refine (List.mem_cons.1 this).resolve_left ?_
      rintro rfl
      exact hpS hq
    · intro c hc hroot
      rcases List.mem_cons.1 hc with rfl | hc
      · exact fun q hq => h.root _ List.mem_cons_self (hroots.2 hroot) q (List.mem_cons_of_mem _ hq)
      · exact h.root c (List.mem_cons_of_mem _ hc) hroot
    · intro c hc hroot
      rcases List.mem_cons.1 hc with rfl | hc
      · obtain ⟨q, hq, hqS, huniq⟩ := h.one _ List.mem_cons_self (hroots.not.2 hroot)
        rcases List.mem_cons.1 hq with rfl | hq
        · exact absurd hqS hpS
        · exact ⟨q, hq, hqS, fun r hr => huniq r (List.mem_cons_of_mem _ hr)⟩
      · exact h.one c (List.mem_cons_of_mem _ hc) hroot

/-- A chain of one leaf goes with its parent, stored behind `s`; the inner node behind the
leaf, if it is another, moves there. -/
theorem Stored.remove (h : Stored (s :: S) ([p] :: rest)) (hz : p ≠ .zeros) (ho : p ≠ .ones) :
    (s ≠ p → p ∈ S ∧ s ∉ S) ∧ Stored (if s = p then S else moved p s S) rest := by
  have hap := h.apart
  rw [List.flatten_cons, List.singleton_append, List.nodup_cons] at hap
  have hnd := List.nodup_cons.1 h.nodup
  have hnroot : ¬(Pair.zeros ∈ [p] ∨ Pair.ones ∈ [p]) := by
    simp only [List.mem_singleton]
    rintro (he | he)
    · exact hz he.symm
    · exact ho he.symm
  have hpS : p ∈ s :: S := by
    obtain ⟨q, hq, hqS, -⟩ := h.one _ List.mem_cons_self hnroot
    rwa [List.mem_singleton.1 hq] at hqS
  have hpr : ∀ c ∈ rest, ∀ q ∈ c, q ≠ p := by
    rintro c hc q hq rfl
    exact hap.1 (List.mem_flatten.2 ⟨c, hc, hq⟩)
  -- either way, the pairs in use afterwards are those before, without `p`
  have hmem : ∀ q, q ∈ (if s = p then S else moved p s S) ↔ q ∈ s :: S ∧ q ≠ p := by
    intro q
    split
    · next he =>
      subst he
      rw [List.mem_cons]
      constructor
      · intro hq
        refine ⟨.inr hq, ?_⟩
        rintro rfl
        exact hnd.1 hq
      · rintro ⟨hq | hq, hne⟩
        · exact absurd hq hne
        · exact hq
    · next he =>
      have hp' : p ∈ S := (List.mem_cons.1 hpS).resolve_left fun h => he h.symm
      rw [mem_moved hp', List.mem_cons]
      constructor
      · rintro (rfl | ⟨hq, hne⟩)
        · exact ⟨.inl rfl, he⟩
        · exact ⟨.inr hq, hne⟩
      · rintro ⟨rfl | hq, hne⟩
        · exact .inl rfl
        · exact .inr ⟨hq, hne⟩
  refine ⟨fun he => ⟨(List.mem_cons.1 hpS).resolve_left fun h => he h.symm, hnd.1⟩, ?_, hap.2, ?_, ?_, ?_⟩
  · split
    · exact hnd.2
    · exact nodup_moved hnd.2 hnd.1
  · intro q hq
    obtain ⟨hqS, hqp⟩ := (hmem q).1 hq
    have := h.known q hqS
    rw [List.flatten_cons, List.singleton_append] at this
    exact (List.mem_cons.1 this).resolve_left hqp
  · intro c hc hroot q hq hqS
    exact h.root c (List.mem_cons_of_mem _ hc) hroot q hq ((hmem q).1 hqS).1
  · intro c hc hroot
    obtain ⟨q, hq, hqS, huniq⟩ := h.one c (List.mem_cons_of_mem _ hc) hroot
    exact ⟨q, hq, (hmem q).2 ⟨hqS, hpr c hc q hq⟩, fun r hr hrS => huniq r hr ((hmem r).1 hrS).1⟩

end Stored

theorem Grown.stored {ρ : Route} {t t' : Tree} (h : Grown ρ t t') (hst : Stored (slots t) (chains t))
    (hp : ρ.pair ∉ (chains t).flatten) (hz : ρ.pair ≠ .zeros) (ho : ρ.pair ≠ .ones) : Stored (slots t') (chains t') := by
  rcases h with ⟨ch, ch', rest, hch, hch', hperm, hs⟩ | ⟨hch, hs⟩
  · have hold := hst.perm (List.Perm.refl _) hch.symm
    have hjoin := hold.join (fun h => hp (hch.flatten.mem_iff.2 h)) hz ho
    exact (hjoin.permChain hperm).perm hs hch'
  · exact (hst.place hp hz ho).perm hs hch

end BsdKernel.Radix
