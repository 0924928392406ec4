import BsdKernel.Vm.MapSeen
import Mathlib.Data.Nat.Bitwise
/-!
# Changing protections

`vm_map_protect` once more, with the lock of the map and the calls of `pmap_protect` that
`vmMapProtect` leaves out. `protect_iff` says when it does what it is for: the first pass must not
end at a submap, where the map stays locked, and the mask of the first entry, which is used for all
entries, must not miss a copy-on-write entry.
-/

namespace BsdKernel.VmMap

open VmObject (vmAdd)

/-! ## The code -/

/-- A call of `pmap_protect`, and the entry whose pages it is for. -/
structure PmapProtect where
  start : Nat
  end_ : Nat
  prot : Nat
  entry : Entry

/-- `prot & MASK(entry)`, where `MASK` is `~VM_PROT_WRITE` or `VM_PROT_ALL`. -/
def mask (copyOnWrite : Bool) (prot : Nat) : Nat := if copyOnWrite then Nat.ldiff prot protWrite else prot &&& protDefault

/-- The protection of an entry after the call. -/
def newProtection (newProt : Nat) (setMax : Bool) (e : Entry) : Nat :=
  if setMax then newProt &&& e.protection else newProt

/-- The update of the physical map for `current`, which had another protection; `cow` is the
copy-on-write bit of `entry`. -/
def pmapCalls (cow : Bool) (old : Entry) (current : Entry) (w : Space) : List PmapProtect :=
  if current.protection ≠ old.protection then
    match current.object with
    | .shareMap s =>
      match w.shares.get s with
      | none => []
      | some share =>
        let shareEnd := vmAdd current.offset (current.end_ - current.start)
        let shareEntries := (share.at_ (vmMapLookupEntry share current.offset).2.1).2
        (shareEntries.takeWhile fun e => e.start < shareEnd).map fun e =>
          ⟨vmAdd (max e.start current.offset - current.offset) current.start,
            vmAdd (min e.end_ shareEnd + 2 ^ 32 - current.offset) current.start, mask e.copyOnWrite current.protection, e⟩
    | _ => [⟨current.start, current.end_, mask cow current.protection, current⟩]
  else []

/-- What the body of the second pass leaves of `current`. -/
def protected_ (newProt : Nat) (setMax : Bool) (current : Entry) : Entry :=
  if setMax then { current with maxProtection := newProt, protection := newProt &&& current.protection }
  else { current with protection := newProt }

/-- The second pass. -/
def protectLoop (end_ newProt : Nat) (setMax cow : Bool) : List Entry → Space → List Entry × Space × List PmapProtect
  | [], w => ([], w, [])
  | e :: rest, w =>
    if e.start < end_ then
      match clipEnd w e end_ with
      | (e, [], w) =>
        let (_, w') := protectEntry newProt setMax e w
        let (rest, w', calls) := protectLoop end_ newProt setMax cow rest w'
        (protected_ newProt setMax e :: rest, w', pmapCalls cow e (protected_ newProt setMax e) w ++ calls)
      | (e, behind, w) =>
        let (_, w') := protectEntry newProt setMax e w
        (protected_ newProt setMax e :: (behind ++ rest), w', pmapCalls cow e (protected_ newProt setMax e) w)
    else (e :: rest, w, [])

/-- A return of `vm_map_protect`: whether the map is locked then, and the calls made. -/
structure Protected where
  result : Kern
  space : Space
  locked : Bool
  calls : List PmapProtect

/-- `vm_map_protect`. The return for a submap does not unlock the map. -/
def vmMapProtectLocked (w : Space) (start end_ newProt : Nat) (setMax : Bool) : Protected :=
  let (start, end_) := rangeCheck w.map start end_
  let (before, rest, w) := enter w start
  match protectCheck end_ newProt rest with
  | .success =>
    let (rest, w, calls) := protectLoop end_ newProt setMax (rest.head?.any (·.copyOnWrite)) rest w
    ⟨.success, w.withEntries (before ++ rest), false, calls⟩
  | .invalidArgument => ⟨.invalidArgument, w, true, []⟩
  | err => ⟨err, w, false, []⟩

/-! ## What it is for -/

/-- The protections of an address. -/
def protections (m : Map) (a : Nat) : Option (Nat × Nat) := (seen m.entries a).map fun e => (e.protection, e.maxProtection)

/-- The protections an address of the range is to get. -/
def changedTo (newProt : Nat) (setMax : Bool) (p : Nat × Nat) : Nat × Nat :=
  if setMax then (newProt &&& p.1, newProt) else (newProt, p.2)

structure Protects (m : Map) (start end_ newProt : Nat) (setMax : Bool) (r : Protected) : Prop where
  unlocked : r.locked = false
  failed : r.result ≠ .success → ∀ a, protections r.space.map a = protections m a
  changed : r.result = .success → ∀ a, protections r.space.map a =
    (protections m a).map fun p => if start ≤ a ∧ a < end_ then changedTo newProt setMax p else p
  subset : (∀ a p, protections m a = some p → p.1 &&& p.2 = p.1) →
    ∀ a p, protections r.space.map a = some p → p.1 &&& p.2 = p.1
  writable : ∀ c ∈ r.calls, c.prot &&& protWrite ≠ 0 → c.entry.copyOnWrite = false

/-- An entry of its own object that is copy-on-write and gets the permission to write. -/
def escalates (newProt : Nat) (setMax : Bool) (e : Entry) : Bool :=
  e.copyOnWrite && !e.isAMap && newProtection newProt setMax e != e.protection && newProtection newProt setMax e &&& protWrite != 0

/-- The mask of the first entry is good for all of them. -/
def Masked (newProt : Nat) (setMax : Bool) (es : List Entry) : Prop :=
  es.head?.any (·.copyOnWrite) = false → ∀ e ∈ es, escalates newProt setMax e = false

/-! ## The first pass -/

/-- The first pass, over what it reads of the entries. -/
def verdict (newProt : Nat) : List (Bool × Nat) → Kern
  | [] => .success
  | (isSubMap, maxProtection) :: rest =>
    if isSubMap then .invalidArgument
    else if newProt &&& maxProtection ≠ newProt then .protectionFailure
    else verdict newProt rest

section Check
variable {hi lo end_ newProt : Nat} {es : List Entry}

theorem attribute_check : Attribute fun e => (e.isSubMap, e.maxProtection) := fun _ _ _ _ _ => rfl

theorem Ordered.filter_eq (h : Ordered hi lo es) (hlo : end_ ≤ lo) : (es.filter fun e => e.start < end_) = [] := by
  refine List.filter_eq_nil_iff.2 fun e he => ?_
  have := (h.mem he).1
  simp only [decide_eq_true_eq]
  omega

theorem ordered_filter {p : Entry → Bool} (h : Ordered hi lo es) : Ordered hi lo (es.filter p) := by
  induction es generalizing lo with
  | nil => trivial
  | cons e es ih =>
    obtain ⟨hlo, hlt, hend, hrest⟩ := h
    have hrest' := ih hrest
    rw [List.filter_cons]
    split
    · exact ⟨hlo, hlt, hend, hrest'⟩
    · refine hrest'.raise fun x hx => ?_
      have := (hrest'.mem (List.mem_of_mem_head? hx)).1
      omega

theorem protectCheck_eq (h : Ordered hi lo es) :
    protectCheck end_ newProt es = verdict newProt ((es.filter fun e => e.start < end_).map fun e => (e.isSubMap, e.maxProtection)) := by
  induction es generalizing lo with
  | nil => rfl
  | cons e es ih =>
    rw [protectCheck]
    by_cases hs : e.start < end_
    · rw [if_pos hs, List.filter_cons_of_pos (by simpa using hs), List.map_cons, verdict, ih h.2.2.2]
    · rw [if_neg hs, List.filter_cons_of_neg (by simpa using hs), h.2.2.2.filter_eq (by have := h.2.1; omega)]
      rfl

theorem verdict_success {l : List (Bool × Nat)} (h : verdict newProt l = .success) : ∀ x ∈ l, newProt &&& x.2 = newProt := by
  induction l with
  | nil => nofun
  | cons x l ih =>
    obtain ⟨sub, prot⟩ := x
    rw [verdict] at h
    split at h
    · cases h
    · split at h
      · cases h
      · rename_i hok
        intro y hy
        rcases List.mem_cons.1 hy with rfl | hy
        · exact not_not.1 hok
        · exact ih h y hy

theorem verdict_cases (newProt : Nat) (l : List (Bool × Nat)) :
    verdict newProt l = .success ∨ verdict newProt l = .invalidArgument ∨ verdict newProt l = .protectionFailure := by
  induction l with
  | nil => exact .inl rfl
  | cons x l ih =>
    obtain ⟨sub, prot⟩ := x
    rw [verdict]
    split
    · exact .inr (.inl rfl)
    · split
      · exact .inr (.inr rfl)
      · exact ih

end Check

/-! ## The second pass -/

section Loop
variable {hi lo end_ newProt : Nat} {setMax cow : Bool} {es : List Entry} {w : Space}

theorem protected_place (newProt : Nat) (setMax : Bool) (e : Entry) :
    (protected_ newProt setMax e).start = e.start ∧ (protected_ newProt setMax e).end_ = e.end_ ∧
      (protected_ newProt setMax e).copyOnWrite = e.copyOnWrite ∧ (protected_ newProt setMax e).object = e.object ∧
      (protected_ newProt setMax e).protection = newProtection newProt setMax e ∧
      ((protected_ newProt setMax e).protection, (protected_ newProt setMax e).maxProtection) =
        changedTo newProt setMax (e.protection, e.maxProtection) := by
  unfold protected_ newProtection changedTo
  cases setMax <;> exact ⟨rfl, rfl, rfl, rfl, rfl, rfl⟩

theorem attribute_protections : Attribute fun e => (e.protection, e.maxProtection) := fun _ _ _ _ _ => rfl

theorem seen_beyond {β : Type} (h : Ordered hi lo es) (hlo : end_ ≤ lo) (g k : Entry → β) (a : Nat) :
    (seen es a).map (fun e => if a < end_ then g e else k e) = (seen es a).map k := by
  cases hseen : seen es a with
  | none => rfl
  | some x =>
    obtain ⟨hx, hxs, -⟩ := mem_of_seen hseen
    have := (h.mem hx).1
    rw [Option.map_some, Option.map_some, if_neg (by omega)]

/-- The turn at the entry that reaches over `end_`. -/
theorem seen_last {e : Entry} {i : Nat} (hs : e.start < end_) (hc : end_ < e.end_) (hrest : Ordered hi e.end_ es) (a : Nat) :
    (seen (protected_ newProt setMax (e.clipFront end_) :: { e.clipBack end_ with id := i } :: es) a).map
        (fun e => (e.protection, e.maxProtection)) =
      (seen (e :: es) a).map fun e => if a < end_ then changedTo newProt setMax (e.protection, e.maxProtection)
        else (e.protection, e.maxProtection) := by
  have hplace := protected_place newProt setMax (e.clipFront end_)
  have hstart : (protected_ newProt setMax (e.clipFront end_)).start = e.start := hplace.1
  have hend : (protected_ newProt setMax (e.clipFront end_)).end_ = end_ := hplace.2.1
  by_cases ha : e.start ≤ a ∧ a < e.end_
  · rw [seen_cons_in ha, Option.map_some]
    by_cases hl : a < end_
    · rw [seen_cons_in (by rw [hstart, hend]; exact ⟨ha.1, hl⟩), Option.map_some, if_pos hl, hplace.2.2.2.2.2]
      rfl
    · have hin : end_ ≤ a ∧ a < e.end_ := ⟨Nat.not_lt.1 hl, ha.2⟩
      rw [seen_cons_out (by rw [hend]; exact .inr hin.1), if_neg hl]
      exact congrArg _ (seen_cons_in (e := { e.clipBack end_ with id := i }) hin)
  · have hout : seen (protected_ newProt setMax (e.clipFront end_) :: { e.clipBack end_ with id := i } :: es) a = seen es a := by
      rw [seen_cons_out, seen_cons_out]
      · show a < end_ ∨ e.end_ ≤ a
        omega
      · rw [hstart, hend]
        omega
    rw [hout, seen_cons_out (by omega)]
    exact (seen_beyond hrest (Nat.le_of_lt hc) _ _ a).symm

/-- What the addresses see after the second pass over entries in order. -/
theorem protectLoop_seen (h : Ordered hi lo es) (a : Nat) :
    (seen (protectLoop end_ newProt setMax cow es w).1 a).map (fun e => (e.protection, e.maxProtection)) =
      (seen es a).map fun e => if a < end_ then changedTo newProt setMax (e.protection, e.maxProtection)
        else (e.protection, e.maxProtection) := by
  induction es generalizing lo w with
  | nil => rfl
  | cons e es ih =>
    obtain ⟨-, hlt, hend, hrest⟩ := h
    rw [protectLoop]
    by_cases hs : e.start < end_
    · rw [if_pos hs, clipEnd]
      by_cases hc : end_ < e.end_
      · rw [if_pos hc]
        exact seen_last (i := w.map.nextId) hs hc hrest a
      · rw [if_neg hc]
        show (seen (protected_ newProt setMax e :: (protectLoop end_ newProt setMax cow es _).1) a).map _ = _
        obtain ⟨hstart, hend, -, -, -, hprot⟩ := protected_place newProt setMax e
        by_cases ha : e.start ≤ a ∧ a < e.end_
        · rw [seen_cons_in (by rwa [hstart, hend]), seen_cons_in ha, Option.map_some, Option.map_some, hprot,
            if_pos (by omega)]
        · rw [seen_cons_out (by rw [hstart, hend]; omega), seen_cons_out (by omega)]
          exact ih hrest
    · rw [if_neg hs]
      have hord : Ordered hi e.start (e :: es) := ⟨Nat.le_refl _, hlt, hend, hrest⟩
      exact (seen_beyond hord (Nat.not_lt.1 hs) _ _ a).symm

/-- A mask lets the permission to write through when it is not that of a copy-on-write entry. -/
theorem mask_write (cow : Bool) (prot : Nat) : mask cow prot &&& protWrite ≠ 0 ↔ cow = false ∧ prot &&& protWrite ≠ 0 := by
  cases cow with
  | true =>
    have hnone : Nat.ldiff prot protWrite &&& protWrite = 0 := by
      refine Nat.eq_of_testBit_eq fun i => ?_
      rw [Nat.testBit_and, Nat.testBit_ldiff, Nat.zero_testBit]
      cases prot.testBit i <;> cases protWrite.testBit i <;> rfl
    rw [mask, if_pos rfl, hnone]
    exact ⟨fun h => absurd rfl h, nofun⟩
  | false =>
    have hall : prot &&& protDefault &&& protWrite = prot &&& protWrite := by
      rw [Nat.and_assoc]
      rfl
    rw [mask, if_neg (by decide), hall]
    exact ⟨fun h => ⟨rfl, h⟩, fun h => h.2⟩

/-- The calls grant no permission to write to an entry that is copy-on-write. -/
def Safe (calls : List PmapProtect) : Prop := ∀ c ∈ calls, c.prot &&& protWrite ≠ 0 → c.entry.copyOnWrite = false

theorem safe_append {c d : List PmapProtect} : Safe (c ++ d) ↔ Safe c ∧ Safe d := List.forall_mem_append

/-- The entries of a sharing map are masked each by itself, another entry by `cow`. -/
theorem pmapCalls_safe (e : Entry) (w : Space) :
    Safe (pmapCalls cow e (protected_ newProt setMax e) w) ↔ (cow = false → escalates newProt setMax e = false) := by
  obtain ⟨-, -, hcow, hobj, hprot, -⟩ := protected_place newProt setMax e
  unfold pmapCalls escalates Entry.isAMap
  rw [hobj, hprot]
  by_cases hne : newProtection newProt setMax e = e.protection
  · rw [if_neg (not_not.2 hne)]
    simp [hne, Safe]
  · rw [if_pos hne]
    have hown : Safe [⟨(protected_ newProt setMax e).start, (protected_ newProt setMax e).end_,
        mask cow (newProtection newProt setMax e), protected_ newProt setMax e⟩] ↔
        (cow = false → newProtection newProt setMax e &&& protWrite ≠ 0 → e.copyOnWrite = false) := by
      simp only [Safe, List.mem_singleton, forall_eq, mask_write, hcow, and_imp]
    cases e.object with
    | shareMap s =>
      refine iff_of_true ?_ fun _ => by simp
      show Safe (match w.shares.get s with | none => [] | some share => _)
      cases w.shares.get s with
      | none => exact fun _ hc => by cases hc
      | some share =>
        refine List.forall_mem_map.2 fun x _ hw => ?_
        exact ((mask_write x.copyOnWrite _).1 hw).1
    | vmObject o =>
      rw [hown]
      cases e.copyOnWrite <;> simp [hne]
    | subMap s =>
      rw [hown]
      cases e.copyOnWrite <;> simp [hne]

/-- The calls of the second pass. -/
theorem protectLoop_safe (h : Ordered hi lo es) :
    Safe (protectLoop end_ newProt setMax cow es w).2.2 ↔
      (cow = false → ∀ e ∈ es.filter fun e => e.start < end_, escalates newProt setMax e = false) := by
  induction es generalizing lo w with
  | nil => exact iff_of_true (fun _ hc => by cases hc) fun _ _ he => by cases he
  | cons e es ih =>
    obtain ⟨-, hlt, -, hrest⟩ := h
    rw [protectLoop]
    by_cases hs : e.start < end_
    · rw [if_pos hs, List.filter_cons_of_pos (by simpa using hs), List.forall_mem_cons, clipEnd]
      by_cases hc : end_ < e.end_
      · rw [if_pos hc, hrest.filter_eq (Nat.le_of_lt hc)]
        refine (pmapCalls_safe (e.clipFront end_) (w.cloned e)).trans (forall_congr' fun _ => ?_)
        exact ⟨fun hx => ⟨hx, fun _ he => by cases he⟩, fun hx => hx.1⟩
      · rw [if_neg hc]
        refine safe_append.trans ?_
        rw [pmapCalls_safe, ih hrest]
        exact forall_and.symm
    · rw [if_neg hs, List.filter_cons_of_neg (by simpa using hs), hrest.filter_eq (by omega)]
      exact iff_of_true (fun _ hc => by cases hc) fun _ _ he => by cases he

end Loop

/-! ## The whole call -/

section Call
variable {m : Map} {w : Space} {newProt : Nat} {setMax : Bool} {es es' : List Entry}

theorem rangeCheck_mem (m : Map) (start end_ a : Nat) (ha : m.minOffset ≤ a ∧ a < m.maxOffset) :
    (rangeCheck m start end_).1 ≤ a ∧ a < (rangeCheck m start end_).2 ↔ start ≤ a ∧ a < end_ := by
  unfold rangeCheck
  simp only
  split <;> split <;> split <;> omega

theorem meeting_rangeCheck (h : Ordered m.maxOffset m.minOffset m.entries) (start end_ : Nat) :
    meeting m.entries (rangeCheck m start end_).1 (rangeCheck m start end_).2 = meeting m.entries start end_ := by
  refine List.filter_congr fun e he => ?_
  have hmem := h.mem he
  rw [decide_eq_decide]
  unfold rangeCheck
  simp only
  split <;> split <;> split <;> omega

theorem masked_congr (h : es.map (fun e => (e.copyOnWrite, escalates newProt setMax e)) =
    es'.map fun e => (e.copyOnWrite, escalates newProt setMax e)) : Masked newProt setMax es ↔ Masked newProt setMax es' := by
  have hmasked : ∀ l : List Entry, Masked newProt setMax l ↔
      ((l.map fun e => (e.copyOnWrite, escalates newProt setMax e)).head?.any (·.1) = false →
        ∀ x ∈ l.map (fun e => (e.copyOnWrite, escalates newProt setMax e)), x.2 = false) := by
    intro l
    rw [List.head?_map, Option.any_map, List.forall_mem_map]
    rfl
  rw [hmasked, hmasked, h]

/-- The first entry of the loop is the first one that begins before `end_`, if there is one. -/
theorem masked_head {hi lo end_ : Nat} (h : Ordered hi lo es) :
    (es.head?.any (·.copyOnWrite) = false → ∀ e ∈ es.filter fun e => e.start < end_, escalates newProt setMax e = false) ↔
      Masked newProt setMax (es.filter fun e => e.start < end_) := by
  cases es with
  | nil => rfl
  | cons e es =>
    by_cases hs : e.start < end_
    · rw [List.filter_cons_of_pos (by simpa using hs)]
      rfl
    · have hord : Ordered hi e.start (e :: es) := ⟨Nat.le_refl _, h.2⟩
      have hempty : ((e :: es).filter fun e => e.start < end_) = [] :=
        hord.filter_eq (Nat.not_lt.1 hs)
      rw [hempty]
      exact iff_of_true (fun _ _ he => by cases he) fun _ _ he => by cases he

theorem and_subset (a b : Nat) : a &&& b &&& a = a &&& b := by rw [Nat.and_comm, ← Nat.and_assoc, Nat.and_self]

section Entered
variable {before rest : List Entry} {w' : Space} {start end_ : Nat}

theorem ordered_rest (hent : Entered w start before rest w') : Ordered w.map.maxOffset (lastEnd w.map.minOffset before) rest := by
  have hord := hent.linked.ordered
  rw [← hent.same.1, ← hent.same.2]
  exact ((ordered_append before rest _).1 hord).2

theorem ordered_meeting (h : Linked w.map) : Ordered w.map.maxOffset w.map.minOffset (meeting w.map.entries start end_) :=
  ordered_filter h.ordered

theorem check_rest (newProt : Nat) (hent : Entered w (rangeCheck w.map start end_).1 before rest w') (h : Linked w.map) :
    protectCheck (rangeCheck w.map start end_).2 newProt rest = protectCheck end_ newProt (meeting w.map.entries start end_) := by
  have hall : (meeting w.map.entries start end_).filter (fun e => e.start < end_) = meeting w.map.entries start end_ := by
    refine List.filter_eq_self.2 fun e he => ?_
    have := List.of_mem_filter he
    simp only [decide_eq_true_eq] at this ⊢
    omega
  rw [protectCheck_eq (ordered_rest hent), hent.meeting _ attribute_check, meeting_rangeCheck h.ordered,
    protectCheck_eq (ordered_meeting h), hall]

theorem protections_entered (hent : Entered w start before rest w') (a : Nat) :
    protections w'.map a = protections w.map a := by
  rw [protections, hent.entries]
  exact hent.seen _ attribute_protections a

/-- What they see after it. -/
theorem changed_protected (newProt : Nat) (setMax : Bool) (hent : Entered w (rangeCheck w.map start end_).1 before rest w')
    (w₁ w₂ : Space) (cow : Bool) (a : Nat) :
    protections (w₂.withEntries
        (before ++ (protectLoop (rangeCheck w.map start end_).2 newProt setMax cow rest w₁).1)).map a =
      (protections w.map a).map fun p => if start ≤ a ∧ a < end_ then changedTo newProt setMax p else p := by
  rw [← protections_entered hent, protections, protections, hent.entries, withEntries_entries, seen_append, seen_append]
  have hmem : ∀ x ∈ before ++ rest, w.map.minOffset ≤ x.start ∧ x.end_ ≤ w.map.maxOffset := fun x hx => by
    have := hent.linked.ordered.mem hx
    rw [← hent.same.1, ← hent.same.2]
    exact ⟨this.1, this.2.2⟩
  cases hb : seen before a with
  | some x =>
    obtain ⟨hx, hlo, hhi⟩ := mem_of_seen hb
    have hbelow := hent.below x hx
    have hin := hmem x (List.mem_append_left _ hx)
    have hrange := rangeCheck_mem w.map start end_ a ⟨by omega, by omega⟩
    have hout : ¬(start ≤ a ∧ a < end_) := fun hr => by
      have := (hrange.2 hr).1
      omega
    rw [Option.some_or, Option.some_or, Option.map_some, Option.map_some, if_neg hout]
  | none =>
    rw [Option.none_or, Option.none_or, protectLoop_seen (ordered_rest hent) a, Option.map_map]
    cases hr : seen rest a with
    | none => rfl
    | some x =>
      obtain ⟨hx, hlo, hhi⟩ := mem_of_seen hr
      have habove := hent.above x hx
      have hin := hmem x (List.mem_append_right _ hx)
      have hrange := rangeCheck_mem w.map start end_ a ⟨by omega, by omega⟩
      have hiff : a < (rangeCheck w.map start end_).2 ↔ start ≤ a ∧ a < end_ :=
        ⟨fun hlt => hrange.1 ⟨by omega, hlt⟩, fun hr => (hrange.2 hr).2⟩
      simp only [Option.map_some, Function.comp, hiff]

/-- Once the first pass is over, the new protection is part of the maximum. -/
theorem protections_subset (hok : protectCheck end_ newProt (meeting w.map.entries start end_) = .success)
    (h : Linked w.map) (hsub : ∀ a p, protections w.map a = some p → p.1 &&& p.2 = p.1) (a : Nat) (p : Nat × Nat)
    (hp : ((protections w.map a).map fun p => if start ≤ a ∧ a < end_ then changedTo newProt setMax p else p) = some p) :
    p.1 &&& p.2 = p.1 := by
  obtain ⟨q, hq, rfl⟩ := Option.map_eq_some_iff.1 hp
  by_cases hin : start ≤ a ∧ a < end_
  · rw [if_pos hin]
    obtain ⟨e, he, rfl⟩ := Option.map_eq_some_iff.1 hq
    obtain ⟨hmem, hlo, hhi⟩ := mem_of_seen he
    have hmeet : e ∈ meeting w.map.entries start end_ := List.mem_filter.2 ⟨hmem, by simp only [decide_eq_true_eq]; omega⟩
    cases setMax with
    | true => exact and_subset newProt e.protection
    | false =>
      rw [protectCheck_eq (ordered_meeting h)] at hok
      refine verdict_success hok (e.isSubMap, e.maxProtection) (List.mem_map.2 ⟨e, List.mem_filter.2 ⟨hmeet, ?_⟩, rfl⟩)
      simp only [decide_eq_true_eq]
      omega
  · rw [if_neg hin]
    exact hsub a q hq

end Entered

/-- `vm_map_protect` does what it is for exactly when its first pass does not end at a submap and, where the pass
succeeds and the first entry of the range is not copy-on-write, no entry that is gets the permission to write. -/
theorem protect_iff (h : Linked w.map) (start end_ newProt : Nat) (setMax : Bool) :
    Protects w.map start end_ newProt setMax (vmMapProtectLocked w start end_ newProt setMax) ↔
      protectCheck end_ newProt (meeting w.map.entries start end_) ≠ .invalidArgument ∧
        (protectCheck end_ newProt (meeting w.map.entries start end_) = .success →
          Masked newProt setMax (meeting w.map.entries start end_)) := by
  have hent := enter_spec h (rangeCheck w.map start end_).1
  unfold vmMapProtectLocked
  simp only
  generalize enter w (rangeCheck w.map start end_).1 = p at hent ⊢
  obtain ⟨before, rest, w'⟩ := p
  simp only at hent ⊢
  have hcheck := check_rest newProt hent h
  rw [hcheck]
  have hcases := verdict_cases newProt ((meeting w.map.entries start end_).filter (fun e => e.start < end_) |>.map
    fun e => (e.isSubMap, e.maxProtection))
  rw [← protectCheck_eq (ordered_meeting h)] at hcases
  generalize hk : protectCheck end_ newProt (meeting w.map.entries start end_) = k at hcases
  rcases hcases with rfl | rfl | rfl
  · have hsafe : Safe (protectLoop (rangeCheck w.map start end_).2 newProt setMax (rest.head?.any (·.copyOnWrite)) rest w').2.2 ↔
        Masked newProt setMax (meeting w.map.entries start end_) := by
      rw [protectLoop_safe (ordered_rest hent), masked_head (ordered_rest hent), ← meeting_rangeCheck h.ordered]
      exact masked_congr (hent.meeting _ (fun _ _ _ _ _ => rfl) _)
    have hchanged := changed_protected newProt setMax hent
    refine ⟨fun hp => ⟨nofun, fun _ => hsafe.1 hp.writable⟩, fun hm => ⟨rfl, fun hn => absurd rfl hn, fun _ => ?_, ?_, hsafe.2 (hm.2 rfl)⟩⟩
    · exact hchanged _ _ _
    · intro hsub a p hp
      rw [hchanged] at hp
      exact protections_subset hk h hsub a p hp
  · exact iff_of_false (fun hp => absurd hp.unlocked nofun) fun hn => hn.1 rfl
  · refine iff_of_true ⟨rfl, fun _ => protections_entered hent, nofun, fun hsub a p hp => ?_, fun _ hc => by cases hc⟩ ⟨nofun, nofun⟩
    rw [protections_entered hent] at hp
    exact hsub a p hp

/-- A page of an object of its own that may be read, and written if asked for. -/
def readOnly (id page : Nat) (object : MapObject) (copyOnWrite : Bool) : Entry :=
  ⟨id, page * 4096, (page + 1) * 4096, object, 0, copyOnWrite, false, 1, protDefault, .copy, 0⟩

def twoPages (e e' : Entry) : Space := ⟨⟨[e, e'], 0, 8192, 2, 8192, true, 1, none, none, 2⟩, ⟨fun _ => none, 0⟩⟩

theorem linked_twoPages (o o' : MapObject) (c c' : Bool) : Linked (twoPages (readOnly 0 0 o c) (readOnly 1 1 o' c')).map where
  ordered := by simp [twoPages, readOnly]
  nodup := by simp [twoPages, readOnly]
  fresh := by simp [twoPages, readOnly]
  nentries := rfl
  hint := live_none _
  firstFree := live_none _
  bound := show 8192 < 2 ^ 32 by decide

theorem protect_iff_plain : Protects (twoPages (readOnly 0 0 (.vmObject none) false) (readOnly 1 1 (.vmObject none) false)).map
    0 8192 3 false
    (vmMapProtectLocked (twoPages (readOnly 0 0 (.vmObject none) false) (readOnly 1 1 (.vmObject none) false)) 0 8192 3 false) :=
  (protect_iff (linked_twoPages _ _ _ _) 0 8192 3 false).2 ⟨by decide, fun _ _ => by decide⟩

/-- A submap in the range: the map stays locked. A copy-on-write page behind another: it becomes writable. -/
theorem locked_or_writable :
    (Linked (twoPages (readOnly 0 0 (.vmObject none) false) (readOnly 1 1 (.subMap 0) false)).map ∧
      ¬Protects (twoPages (readOnly 0 0 (.vmObject none) false) (readOnly 1 1 (.subMap 0) false)).map 0 8192 3 false
        (vmMapProtectLocked (twoPages (readOnly 0 0 (.vmObject none) false) (readOnly 1 1 (.subMap 0) false)) 0 8192 3 false)) ∧
    (Linked (twoPages (readOnly 0 0 (.vmObject none) false) (readOnly 1 1 (.vmObject none) true)).map ∧
      ¬Protects (twoPages (readOnly 0 0 (.vmObject none) false) (readOnly 1 1 (.vmObject none) true)).map 0 8192 3 false
        (vmMapProtectLocked (twoPages (readOnly 0 0 (.vmObject none) false) (readOnly 1 1 (.vmObject none) true))
          0 8192 3 false)) := by
  refine ⟨⟨linked_twoPages _ _ _ _, fun hp => absurd hp.unlocked (by decide)⟩, linked_twoPages _ _ _ _, fun hp => ?_⟩
  have hcow := hp.writable ⟨4096, 8192, 3, { readOnly 1 1 (.vmObject none) true with protection := 3 }⟩
    (.tail _ (.head _)) (by decide)
  exact absurd hcow (by decide)

end Call

end BsdKernel.VmMap
