import BsdKernel.Lib.Linked
import BsdKernel.Lib.Trace
import Mathlib.Data.Fintype.Card
import Mathlib.Data.Fintype.Sum
/-!
# External symbols

`kern/subr/esym.c` and the macros of `esym.h`: every place of the kernel that binds or fetches a symbol has
a static entry, which is linked to the list of exports or to the list of lookups.

`esym_runs`: the lists end, every fetch gives the address of the current binding, and the lookups
are the places that have fetched a bound name, exactly in the runs that fetch no name at a place that
kept an address from before the name was unbound, and so on (`Exact`).
-/

set_option linter.unusedSectionVars false

namespace BsdKernel.Esym

open BsdKernel.Lib

/-- The places of `esym_bind` and of `esym_fetch`. An address is not null. -/
structure Sites (B F N A : Type) where
  bindName : B → N
  bindAddress : B → A
  fetchName : F → N

variable {B F N A : Type} [DecidableEq B] [DecidableEq F] [DecidableEq N] [DecidableEq A] [Fintype B] [Fintype F]

/-- `es_name` -/
def Sites.name (w : Sites B F N A) : B ⊕ F → N := Sum.elim w.bindName w.fetchName

/-! ## The tables -/

/-- `_esym_elist_`, `_esym_llist_` and the entries; `value` is what `esym_fetch` has given last. -/
structure Symtab (B F A : Type) where
  elist : Option (B ⊕ F)
  llist : Option (B ⊕ F)
  next : B ⊕ F → Option (B ⊕ F)
  address : B ⊕ F → Option A
  value : Option A

/-- A loop that has visited more entries than there are does not end. -/
def visits (B F : Type) [Fintype B] [Fintype F] : Nat := Fintype.card (B ⊕ F) + 1

namespace Symtab
variable (w : Sites B F N A) (s : Symtab B F A)

/-- Before the first statement of the kernel. -/
def boot : Symtab B F A :=
  ⟨none, none, fun _ => none, Sum.elim (fun b => some (w.bindAddress b)) (fun _ => none), none⟩

/-- `_esymtab_search_` -/
def search (es : B ⊕ F) : Option (Symtab B F A × Option A) := do
  let (_, ss) ← scan s.next (fun e => w.name es = w.name e) (visits B F) s.elist
  match ss with
  | some e => some ({ s with next := Function.update s.next es s.llist, llist := some es }, s.address e)
  | none => some (s, none)

/-- `_esymtab_unbind_` -/
def unbind (name : N) : Option (Symtab B F A) := do
  let (os, ss) ← scan s.next (fun e => name = w.name e) (visits B F) s.elist
  match ss with
  | none => some s
  | some es =>
    let (elist, next) := unlink s.elist s.next os (s.next es)
    let (llist, next) ← sweep (fun e => s.address es = s.address e) (visits B F) s.llist next
    some { s with elist, llist, next }

/-- `esym_bind` -/
def bind (b : B) : Symtab B F A :=
  { s with next := Function.update s.next (.inl b) s.elist, elist := some (.inl b) }

/-- `esym_fetch` -/
def fetch (f : F) : Option (Symtab B F A) :=
  match s.address (.inr f) with
  | some a => some { s with value := some a }
  | none => do
    let (s, a) ← s.search w (.inr f)
    some { s with address := Function.update s.address (.inr f) a, value := a }

end Symtab

/-! ## What the symbols are for -/

/-- The names that are bound, the places that have fetched a name which has been bound since, and the value that the
last fetch should give. `exported` are the places whose binding has been made and not taken off. -/
structure Table (B F N A : Type) where
  bound : N → Option A
  fetched : Finset F
  exported : List B
  value : Option A

inductive Op (B F N : Type)
  | bind (b : B)
  | unbind (name : N)
  | fetch (f : F)

namespace Table
variable (w : Sites B F N A) (t : Table B F N A)

def boot : Table B F N A := ⟨fun _ => none, ∅, [], none⟩

/-- The place whose binding `unbind` takes off. -/
def exporter (name : N) : Option B := t.exported.find? fun b => name = w.bindName b

def step : Op B F N → Table B F N A
  | .bind b => { t with bound := Function.update t.bound (w.bindName b) (some (w.bindAddress b)), exported := b :: t.exported }
  | .unbind name =>
    { t with
      bound := Function.update t.bound name none
      fetched := t.fetched.filter fun f => w.fetchName f ≠ name
      exported := t.exported.eraseP fun b => name = w.bindName b }
  | .fetch f =>
    { t with
      value := t.bound (w.fetchName f)
      fetched := if (t.bound (w.fetchName f)).isSome then insert f t.fetched else t.fetched }

end Table

/-! ## Runs -/

/-- The symbols of the kernel, which are gone when a loop does not end, next to what they are for. -/
structure System (B F N A : Type) where
  code : Option (Symtab B F A)
  table : Table B F N A

namespace System
variable (w : Sites B F N A) (x : System B F N A)

def boot : System B F N A := ⟨some (Symtab.boot w), Table.boot⟩

def step (op : Op B F N) : System B F N A :=
  ⟨x.code.bind fun s =>
    match op with
    | .bind b => some (s.bind b)
    | .unbind name => s.unbind w name
    | .fetch f => s.fetch w f,
  x.table.step w op⟩

/-- The lists end, the fetch has given what it should, and the lookups are the places that have fetched. -/
def Sound : Prop :=
  ∃ s E L, x.code = some s ∧ Linked s.next s.elist E ∧ Linked s.next s.llist L ∧ s.value = x.table.value ∧
    L.Nodup ∧ ∀ e, e ∈ L ↔ ∃ f ∈ x.table.fetched, e = .inr f

/-- A name is unbound before it is bound to another address. -/
def Unbound (op : Op B F N) : Prop :=
  match op with
  | .bind b => x.table.bound (w.bindName b) = none ∨ x.table.bound (w.bindName b) = some (w.bindAddress b)
  | _ => True

/-- The steps after which all is as it should be: a place binds once until it is taken off; no other name that has been
fetched is bound to the address that is taken off; a place that has an address has fetched it since the
name was bound; and no binding is left of a name that is unbound. -/
def Exact (op : Op B F N) : Prop :=
  match op with
  | .bind b => b ∉ x.table.exported
  | .unbind name =>
    ∀ b ∈ x.table.exporter w name, ∀ f ∈ x.table.fetched, w.fetchName f ≠ name →
      x.table.bound (w.fetchName f) ≠ some (w.bindAddress b)
  | .fetch f =>
    (∀ s ∈ x.code, s.address (.inr f) ≠ none → f ∈ x.table.fetched) ∧
      (x.table.bound (w.fetchName f) = none → x.table.exporter w (w.fetchName f) = none)

end System

/-! ## The invariant -/

theorem find?_eraseP {α : Type} {p q : α → Bool} (h : ∀ a, q a = true → p a = false) (l : List α) :
    (l.eraseP q).find? p = l.find? p := by
  induction l with
  | nil => rfl
  | cons a l ih =>
    cases hq : q a with
    | true => rw [List.eraseP_cons_of_pos hq, List.find?_cons_of_neg (by simp [h a hq])]
    | false =>
      rw [List.eraseP_cons_of_neg (by simp [hq])]
      cases hp : p a with
      | true => rw [List.find?_cons_of_pos hp, List.find?_cons_of_pos hp]
      | false => rw [List.find?_cons_of_neg (by simp [hp]), List.find?_cons_of_neg (by simp [hp]), ih]

/-- The lists of the tables are the exports and the lookups `L`, and what is kept at the places is what is bound. -/
structure Symtab.Holds (w : Sites B F N A) (s : Symtab B F A) (t : Table B F N A) (L : List F) : Prop where
  exports : Linked s.next s.elist (t.exported.map .inl)
  exports_nodup : t.exported.Nodup
  lookups : Linked s.next s.llist (L.map .inr)
  lookups_nodup : L.Nodup
  mem_lookups : ∀ f, f ∈ L ↔ f ∈ t.fetched
  address : ∀ b, s.address (.inl b) = some (w.bindAddress b)
  kept : ∀ f ∈ t.fetched, ∃ a, s.address (.inr f) = some a ∧ t.bound (w.fetchName f) = some a
  bound : ∀ n a, t.bound n = some a → ∃ b, t.exporter w n = some b ∧ w.bindAddress b = a
  value : s.value = t.value

variable {b : B} {name : N} {f : F}

namespace Symtab
variable {w : Sites B F N A} {s : Symtab B F A} {t : Table B F N A} {L : List F}

theorem Holds.boot : Holds w (Symtab.boot w) Table.boot [] :=
  ⟨rfl, List.nodup_nil, rfl, List.nodup_nil, by simp [Table.boot], fun _ => rfl, fun f hf => by simp [Table.boot] at hf,
    nofun, rfl⟩

theorem length_lt_visits {l : List (B ⊕ F)} (h : l.Nodup) : l.length < visits B F :=
  Nat.lt_succ_of_le h.length_le_card

namespace Holds
variable (h : s.Holds w t L)
include h

theorem exports_nodup' : (t.exported.map (Sum.inl (β := F))).Nodup := h.exports_nodup.map Sum.inl_injective

theorem lookups_nodup' : (L.map (Sum.inr (α := B))).Nodup := h.lookups_nodup.map Sum.inr_injective

/-! ## Binding -/

theorem bind (hb : b ∉ t.exported)
    (hn : t.bound (w.bindName b) = none ∨ t.bound (w.bindName b) = some (w.bindAddress b)) :
    (s.bind b).Holds w (t.step w (.bind b)) L := by
  refine ⟨⟨rfl, ?_⟩, List.nodup_cons.2 ⟨hb, h.exports_nodup⟩, h.lookups.update (by simp) _, h.lookups_nodup, h.mem_lookups, h.address,
    fun f hf => ?_, fun n a ha => ?_, h.value⟩
  · show Linked (Function.update s.next (.inl b) s.elist) (Function.update s.next (.inl b) s.elist (.inl b)) _
    rw [Function.update_self]
    exact h.exports.update (by simpa using hb) _
  · obtain ⟨a, hka, hba⟩ := h.kept f hf
    refine ⟨a, hka, ?_⟩
    show Function.update _ _ _ _ = _
    by_cases he : w.fetchName f = w.bindName b
    · rw [he] at hba ⊢
      rw [Function.update_self]
      rw [hba] at hn
      rcases hn with hn | hn
      · cases hn
      · exact hn.symm
    · rw [Function.update_of_ne he, hba]
  · replace ha : Function.update t.bound (w.bindName b) (some (w.bindAddress b)) n = some a := ha
    by_cases he : n = w.bindName b
    · subst he
      rw [Function.update_self] at ha
      exact ⟨b, by simp [Table.exporter, Table.step], Option.some.inj ha⟩
    · rw [Function.update_of_ne he] at ha
      obtain ⟨b', hb', ha'⟩ := h.bound n a ha
      exact ⟨b', by simpa [Table.exporter, Table.step, he] using hb', ha'⟩

theorem bind_twice (hb : b ∈ t.exported) : ¬∃ E, Linked (s.bind b).next (s.bind b).elist E :=
  h.exports.no_end h.exports_nodup' (List.mem_map_of_mem hb)

/-! ## Unbinding -/

theorem scan_exports (name : N) :
    scan s.next (fun e => name = w.name e) (visits B F) s.elist =
      some (((t.exported.takeWhile fun b => !decide (name = w.bindName b)).map Sum.inl).getLast?, (t.exporter w name).map .inl) := by
  rw [h.exports.scan _ (length_lt_visits h.exports_nodup'), List.takeWhile_map, List.find?_map]
  rfl

theorem no_exporter (he : t.exporter w name = none) : t.bound name = none ∧ ∀ f ∈ t.fetched, w.fetchName f ≠ name := by
  have hb : t.bound name = none := by
    cases hb : t.bound name with
    | none => rfl
    | some a =>
      obtain ⟨b, hb', -⟩ := h.bound name a hb
      rw [he] at hb'
      cases hb'
  refine ⟨hb, fun f hf hn => ?_⟩
  obtain ⟨a, -, ha⟩ := h.kept f hf
  rw [hn, hb] at ha
  cases ha

theorem unbind_none (he : t.exporter w name = none) :
    s.unbind w name = some s ∧ s.Holds w (t.step w (.unbind name)) L := by
  obtain ⟨hb, hf⟩ := h.no_exporter he
  have hnone : ∀ b ∈ t.exported, ¬(decide (name = w.bindName b) = true) := List.find?_eq_none.1 he
  have hstep : t.step w (.unbind name) = t := by
    have h₁ : Function.update t.bound name none = t.bound := by rw [← hb, Function.update_eq_self]
    have h₂ : (t.fetched.filter fun f => w.fetchName f ≠ name) = t.fetched := Finset.filter_true_of_mem hf
    have h₃ : (t.exported.eraseP fun b => name = w.bindName b) = t.exported := List.eraseP_of_forall_not hnone
    unfold Table.step
    dsimp only
    rw [h₁, h₂, h₃]
  refine ⟨?_, hstep.symm ▸ h⟩
  unfold unbind
  rw [h.scan_exports, he]
  rfl

/-- The binding is taken off, and from the lookups all that are at its address. -/
theorem unbind_some (he : t.exporter w name = some b) :
    ∃ s', s.unbind w name = some s' ∧ s'.address = s.address ∧ s'.value = s.value ∧
      Linked s'.next s'.elist ((t.step w (.unbind name)).exported.map .inl) ∧
      Linked s'.next s'.llist ((L.filter fun f => !decide (some (w.bindAddress b) = s.address (.inr f))).map .inr) := by
  obtain ⟨hb, l, m, hsplit, hl⟩ := List.find?_eq_some_iff_append.1 he
  have htake : (t.exported.takeWhile fun b => !decide (name = w.bindName b)) = l := by
    rw [hsplit, List.takeWhile_append_of_pos hl, List.takeWhile_cons_of_neg (by simpa using hb), List.append_nil]
  have herase : (t.step w (.unbind name)).exported = l ++ m := by
    show t.exported.eraseP _ = _
    rw [hsplit, List.eraseP_append_right _ (fun a ha => by simpa using hl a ha), List.eraseP_cons_of_pos (p := fun b => name = w.bindName b) hb]
  have hexports := h.exports
  have hnd := h.exports_nodup'
  rw [hsplit, List.map_append, List.map_cons] at hexports hnd
  have hun := hexports.unlink hnd
  have hlookups : Linked (unlink s.elist s.next (l.map Sum.inl).getLast? (s.next (.inl b))).2 s.llist (L.map .inr) :=
    h.lookups.congr fun e he' => unlink_of_notMem fun hm => by
      obtain ⟨_, _, rfl⟩ := List.mem_map.1 hm
      simp at he'
  obtain ⟨first, next', hsweep, hlinked, hframe⟩ :=
    hlookups.sweep h.lookups_nodup' (fun e => s.address (.inl b) = s.address e) (length_lt_visits h.lookups_nodup')
  refine ⟨{ s with elist := (unlink s.elist s.next (l.map Sum.inl).getLast? (s.next (.inl b))).1, llist := first, next := next' },
    ?_, rfl, rfl, ?_, ?_⟩
  · unfold unbind
    rw [h.scan_exports, he, htake]
    show (do
      let x ← sweep (fun e => s.address (.inl b) = s.address e) (visits B F) s.llist
        (unlink s.elist s.next (l.map Sum.inl).getLast? (s.next (.inl b))).2
      some _) = _
    rw [hsweep]
    rfl
  · rw [herase, List.map_append]
    refine hun.congr fun e he' => hframe e fun hm => ?_
    obtain ⟨_, _, rfl⟩ := List.mem_map.1 hm
    simp at he'
  · rw [List.filter_map] at hlinked
    rw [← h.address b]
    exact hlinked

/-- The unbinding leaves the lookups of other names if none of them is bound to the same address. -/
theorem unbind (hsame : ∀ b ∈ t.exporter w name, ∀ f ∈ t.fetched, w.fetchName f ≠ name →
      t.bound (w.fetchName f) ≠ some (w.bindAddress b)) :
    ∃ s' L', s.unbind w name = some s' ∧ s'.Holds w (t.step w (.unbind name)) L' := by
  cases he : t.exporter w name with
  | none => exact ⟨s, L, h.unbind_none he⟩
  | some b =>
    obtain ⟨s', hs', haddr, hval, hexp, hlook⟩ := h.unbind_some he
    refine ⟨s', _, hs', hexp, h.exports_nodup.eraseP _, hlook, h.lookups_nodup.filter _, fun f => ?_, fun b' => ?_, fun f hf => ?_,
      fun n a ha => ?_, ?_⟩
    · show f ∈ L.filter _ ↔ f ∈ t.fetched.filter _
      rw [List.mem_filter, Finset.mem_filter, h.mem_lookups]
      refine and_congr_right fun hf => ?_
      obtain ⟨a, hk, hb⟩ := h.kept f hf
      rw [hk, Bool.not_eq_true', decide_eq_false_iff_not]
      refine ⟨fun hne hn => ?_, fun hn => hb ▸ (hsame b he f hf hn).symm⟩
      obtain ⟨b', he', ha⟩ := h.bound name a (hn ▸ hb)
      obtain rfl := Option.some.inj (he.symm.trans he')
      exact hne (congrArg some ha)
    · rw [haddr]
      exact h.address b'
    · obtain ⟨hf, hn⟩ := Finset.mem_filter.1 hf
      obtain ⟨a, hk, hb⟩ := h.kept f hf
      refine ⟨a, by rw [haddr]; exact hk, ?_⟩
      show Function.update _ _ _ _ = _
      rw [Function.update_of_ne hn, hb]
    · replace ha : Function.update t.bound name none n = some a := ha
      have hn : n ≠ name := by
        rintro rfl
        rw [Function.update_self] at ha
        cases ha
      rw [Function.update_of_ne hn] at ha
      obtain ⟨b', he', ha'⟩ := h.bound n a ha
      refine ⟨b', ?_, ha'⟩
      show List.find? _ (t.exported.eraseP _) = _
      rw [find?_eraseP fun c hc => by simpa [← of_decide_eq_true hc] using hn]
      exact he'
    · rw [hval]
      exact h.value

/-- A place that has fetched another name is taken off with the address that the names share. -/
theorem unbind_shared (he : t.exporter w name = some b) (hf : f ∈ t.fetched) (hn : w.fetchName f ≠ name)
    (ha : t.bound (w.fetchName f) = some (w.bindAddress b)) :
    ∃ s', s.unbind w name = some s' ∧ f ∈ (t.step w (.unbind name)).fetched ∧
      ∃ L', Linked s'.next s'.llist L' ∧ .inr f ∉ L' := by
  obtain ⟨s', hs', -, -, -, hlook⟩ := h.unbind_some he
  refine ⟨s', hs', Finset.mem_filter.2 ⟨hf, hn⟩, _, hlook, fun hm => ?_⟩
  obtain ⟨f', hf', heq⟩ := List.mem_map.1 hm
  obtain rfl := Sum.inr.inj heq
  obtain ⟨a, hk, hb⟩ := h.kept f' hf
  have hne := (List.mem_filter.1 hf').2
  rw [hk, ← hb, ha] at hne
  simp at hne

/-! ## Fetching -/

theorem search_none (he : t.exporter w (w.fetchName f) = none) : s.search w (.inr f) = some (s, none) := by
  unfold search
  rw [show w.name (.inr f) = w.fetchName f from rfl, h.scan_exports, he]
  rfl

theorem search_some (he : t.exporter w (w.fetchName f) = some b) :
    s.search w (.inr f) =
      some ({ s with next := Function.update s.next (.inr f) s.llist, llist := some (.inr f) }, some (w.bindAddress b)) := by
  unfold search
  rw [show w.name (.inr f) = w.fetchName f from rfl, h.scan_exports, he]
  show some (_, s.address (.inl b)) = _
  rw [h.address]

theorem fetch (hkept : s.address (.inr f) ≠ none → f ∈ t.fetched)
    (hleft : t.bound (w.fetchName f) = none → t.exporter w (w.fetchName f) = none) :
    ∃ s' L', s.fetch w f = some s' ∧ s'.Holds w (t.step w (.fetch f)) L' := by
  cases ha : s.address (.inr f) with
  | some a =>
    have hf := hkept (by rw [ha]; nofun)
    obtain ⟨a', hk, hb⟩ := h.kept f hf
    obtain rfl := Option.some.inj (ha.symm.trans hk)
    refine ⟨{ s with value := some a }, L, by unfold Symtab.fetch; rw [ha], ?_⟩
    have hstep : t.step w (.fetch f) = { t with value := some a } := by
      unfold Table.step
      dsimp only
      rw [hb, Finset.insert_eq_of_mem hf]
      simp
    rw [hstep]
    exact ⟨h.exports, h.exports_nodup, h.lookups, h.lookups_nodup, h.mem_lookups, h.address, h.kept, h.bound, rfl⟩
  | none =>
    have hf : f ∉ t.fetched := by
      intro hf
      obtain ⟨a, hk, -⟩ := h.kept f hf
      rw [ha] at hk
      cases hk
    cases hb : t.bound (w.fetchName f) with
    | none =>
      refine ⟨{ s with value := none }, L, ?_, ?_⟩
      · unfold Symtab.fetch
        rw [ha]
        show (do let (s, a) ← s.search w (.inr f); some _) = _
        rw [h.search_none (hleft hb), ← ha]
        show some { s with address := Function.update s.address (.inr f) (s.address (.inr f)), value := s.address (.inr f) } = _
        rw [Function.update_eq_self]
      · have hstep : t.step w (.fetch f) = { t with value := none } := by
          unfold Table.step
          dsimp only
          rw [hb]
          rfl
        rw [hstep]
        exact ⟨h.exports, h.exports_nodup, h.lookups, h.lookups_nodup, h.mem_lookups, h.address, h.kept, h.bound, rfl⟩
    | some a =>
      obtain ⟨b, he, hab⟩ := h.bound _ a hb
      have hstep : t.step w (.fetch f) = { t with value := some a, fetched := insert f t.fetched } := by
        unfold Table.step
        dsimp only
        rw [hb]
        rfl
      have hfL : f ∉ L := fun hm => hf ((h.mem_lookups f).1 hm)
      refine ⟨{ s with
          next := Function.update s.next (.inr f) s.llist
          llist := some (.inr f)
          address := Function.update s.address (.inr f) (some a)
          value := some a }, f :: L, ?_, ?_⟩
      · unfold Symtab.fetch
        rw [ha]
        show (do let (s, a) ← s.search w (.inr f); some _) = _
        rw [h.search_some he, hab]
        rfl
      · rw [hstep]
        refine ⟨h.exports.update (by simp) _, h.exports_nodup, ⟨rfl, ?_⟩, List.nodup_cons.2 ⟨hfL, h.lookups_nodup⟩, fun g => ?_, fun b' => ?_,
          fun g hg => ?_, h.bound, rfl⟩
        · show Linked (Function.update _ _ _) (Function.update s.next (.inr f) s.llist (.inr f)) _
          rw [Function.update_self]
          exact h.lookups.update (by simpa using hfL) _
        · rw [List.mem_cons, Finset.mem_insert, h.mem_lookups]
        · exact (Function.update_of_ne (Sum.inl_ne_inr (b := f)) (some a) s.address).trans (h.address b')
        · show ∃ a', Function.update s.address _ _ _ = _ ∧ _
          by_cases hgf : g = f
          · subst hgf
            exact ⟨a, Function.update_self _ _ _, hb⟩
          · rw [Function.update_of_ne fun he' => hgf (Sum.inr.inj he')]
            exact h.kept g ((Finset.mem_insert.1 hg).resolve_left hgf)

/-- An address from before the name was unbound is given again, and the place is not among the lookups. -/
theorem fetch_stale (ha : s.address (.inr f) ≠ none) :
    ∃ s' : Symtab B F A, s.fetch w f = some s' ∧ s'.llist = s.llist ∧ s'.next = s.next ∧ s'.value ≠ none := by
  obtain ⟨a, ha⟩ := Option.ne_none_iff_exists'.1 ha
  exact ⟨{ s with value := some a }, by unfold Symtab.fetch; rw [ha], rfl, rfl, nofun⟩

theorem fetch_leftover (ha : s.address (.inr f) = none) (he : t.exporter w (w.fetchName f) = some b) :
    ∃ s' : Symtab B F A, s.fetch w f = some s' ∧ s'.value ≠ none := by
  refine ⟨{ s with
      next := Function.update s.next (.inr f) s.llist
      llist := some (.inr f)
      address := Function.update s.address (.inr f) (some (w.bindAddress b))
      value := some (w.bindAddress b) }, ?_, nofun⟩
  unfold Symtab.fetch
  rw [ha]
  show (do let (s, a) ← s.search w (.inr f); some _) = _
  rw [h.search_some he]
  rfl

end Holds

end Symtab

namespace System
variable {w : Sites B F N A} {x : System B F N A}

def Inv (w : Sites B F N A) (x : System B F N A) : Prop := ∃ s L, x.code = some s ∧ s.Holds w x.table L

theorem Inv.sound (h : x.Inv w) : x.Sound := by
  obtain ⟨s, L, hs, hh⟩ := h
  refine ⟨s, _, _, hs, hh.exports, hh.lookups, hh.value, hh.lookups_nodup', fun e => ?_⟩
  rw [List.mem_map]
  constructor
  · rintro ⟨f, hf, rfl⟩
    exact ⟨f, (hh.mem_lookups f).1 hf, rfl⟩
  · rintro ⟨f, hf, rfl⟩
    exact ⟨f, (hh.mem_lookups f).2 hf, rfl⟩

theorem Inv.step {op : Op B F N} (h : x.Inv w) (hu : x.Unbound w op) (he : x.Exact w op) : (x.step w op).Inv w := by
  obtain ⟨s, L, hs, hh⟩ := h
  unfold System.step
  rw [hs]
  cases op with
  | bind b => exact ⟨_, L, rfl, hh.bind he hu⟩
  | unbind name =>
    obtain ⟨s', L', hs', hh'⟩ := hh.unbind he
    exact ⟨s', L', hs', hh'⟩
  | fetch f =>
    obtain ⟨s', L', hs', hh'⟩ := hh.fetch (he.1 s hs) he.2
    exact ⟨s', L', hs', hh'⟩

theorem Inv.unsound {op : Op B F N} (h : x.Inv w) (he : ¬x.Exact w op) : ¬(x.step w op).Sound := by
  obtain ⟨s, L, hs, hh⟩ := h
  rintro ⟨s'', E, L'', hs'', hE, hL, hval, -, hmem⟩
  unfold System.step at hs'' hval hmem
  rw [hs] at hs''
  cases op with
  | bind b =>
    obtain rfl := Option.some.inj hs''
    exact hh.bind_twice (not_not.1 he) ⟨E, hE⟩
  | unbind name =>
    unfold Exact at he
    push Not at he
    obtain ⟨b, hb, f, hf, hn, ha⟩ := he
    obtain ⟨s', hs', hf', L', hL', hfL⟩ := hh.unbind_shared hb hf hn ha
    obtain rfl := Option.some.inj (hs'.symm.trans hs'')
    rw [hL.unique hL'] at hmem
    exact hfL ((hmem _).2 ⟨f, hf', rfl⟩)
  | fetch f =>
    by_cases ha : s.address (.inr f) = none
    · have hleft : x.table.bound (w.fetchName f) = none ∧ x.table.exporter w (w.fetchName f) ≠ none := by
        by_contra hc
        refine he ⟨fun t ht ht' => absurd ?_ ht', fun hb => not_not.1 fun hne => hc ⟨hb, hne⟩⟩
        obtain rfl := Option.some.inj (hs.symm.trans ht)
        exact ha
      obtain ⟨b, hb⟩ := Option.ne_none_iff_exists'.1 hleft.2
      obtain ⟨s', hs', hv⟩ := hh.fetch_leftover ha hb
      obtain rfl := Option.some.inj (hs'.symm.trans hs'')
      exact hv (hval.trans hleft.1)
    · have hf : f ∉ x.table.fetched := by
        intro hf
        obtain ⟨a, -, hb⟩ := hh.kept f hf
        exact he ⟨fun _ _ _ => hf, fun hn => by rw [hb] at hn; cases hn⟩
      obtain ⟨s', hs', hl, hn, hv⟩ := hh.fetch_stale (f := f) ha
      obtain rfl := Option.some.inj (hs'.symm.trans hs'')
      cases hb : x.table.bound (w.fetchName f) with
      | none => exact hv (hval.trans hb)
      | some a =>
        have hin : Sum.inr f ∈ L'' := by
          refine (hmem _).2 ⟨f, ?_, rfl⟩
          show f ∈ if (x.table.bound (w.fetchName f)).isSome then _ else _
          rw [hb]
          exact Finset.mem_insert_self f _
        rw [hl, hn] at hL
        rw [hL.unique hh.lookups] at hin
        obtain ⟨g, hg, hgf⟩ := List.mem_map.1 hin
        obtain rfl := Sum.inr.inj hgf
        exact hf ((hh.mem_lookups g).1 hg)

end System

instance (w : Sites B F N A) (x : System B F N A) : (op : Op B F N) → Decidable (x.Unbound w op)
  | .bind _ => inferInstanceAs (Decidable (_ ∨ _))
  | .unbind _ | .fetch _ => isTrue trivial

instance (w : Sites B F N A) (x : System B F N A) : (op : Op B F N) → Decidable (x.Exact w op)
  | .bind b => inferInstanceAs (Decidable (b ∉ x.table.exported))
  | .unbind name => inferInstanceAs (Decidable (∀ b ∈ x.table.exporter w name, ∀ f ∈ x.table.fetched, _))
  | .fetch f => inferInstanceAs (Decidable ((∀ s ∈ x.code, s.address (.inr f) ≠ none → f ∈ x.table.fetched) ∧ _))

/-- In a run in which a name is unbound before it is bound to another address, the lists always end, every fetch gives the
address that its name is bound to, and the lookups are the places that have fetched a bound name, if and only if
every step meets `Exact`. -/
theorem esym_runs (w : Sites B F N A) (ops : List (Op B F N)) (hu : Along (System.step w) (System.Unbound w) (System.boot w) ops) :
    (∀ x ∈ states (System.step w) (System.boot w) ops, x.Sound) ↔ Along (System.step w) (System.Exact w) (System.boot w) ops :=
  states_iff_along (fun _ _ => System.Inv.step) (fun _ => System.Inv.sound) (fun _ _ h _ => h.unsound)
    ⟨_, [], rfl, Symtab.Holds.boot⟩ hu

/-! ## One symbol -/

/-- A symbol with the name `0` that is bound in two places, and two places that fetch it. -/
def one : Sites Bool Bool Nat Nat := ⟨fun _ => 0, fun b => if b then 1 else 2, fun _ => 0⟩

theorem esym_runs_one :
    (final (System.step one) (System.boot one) [.fetch true, .bind true, .fetch true, .fetch false, .fetch true]).Sound :=
  (esym_runs one [.fetch true, .bind true, .fetch true, .fetch false, .fetch true] (by decide +kernel)).2 (by decide +kernel)
    _ (final_mem_states _ _ _)

/-- A place goes on giving the address of a symbol that has been unbound. -/
theorem stale_address :
    Along (System.step one) (System.Unbound one) (System.boot one) [.bind true, .fetch true, .unbind 0, .fetch true] ∧
      ¬∀ x ∈ states (System.step one) (System.boot one) [.bind true, .fetch true, .unbind 0, .fetch true], x.Sound := by
  refine ⟨by decide +kernel, fun h => ?_⟩
  obtain ⟨s, E, L, hs, -, -, hval, -⟩ := h _ (final_mem_states _ _ _)
  have hcode : (final (System.step one) (System.boot one) [.bind true, .fetch true, .unbind 0, .fetch true]).code.map (·.value) =
      some (some 1) := by decide +kernel
  rw [hs] at hcode
  have htable : (final (System.step one) (System.boot one) [.bind true, .fetch true, .unbind 0, .fetch true]).table.value = none := by
    decide +kernel
  rw [htable] at hval
  rw [Option.map_some, hval] at hcode
  cases hcode

end BsdKernel.Esym
