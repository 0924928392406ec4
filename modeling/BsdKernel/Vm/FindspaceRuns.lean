import BsdKernel.Vm.FirstFree
/-!
# Finding space in runs

`findspace_runs`: while the maps are well formed, the search for space is first-fit in every state of a run if
and only if the run links no entry behind the header away from `min_offset` while the hint is at the header.
`vm_map_insert` moves the hint to the new entry where the one before it reaches up to it, and takes the header
for one that does.
-/

namespace BsdKernel.VmMap

open Lib
open VmObject (vmAdd)

variable {env : Env}

/-! ## Finding -/

section Find
variable {others : List Window} {m : Map} {sh : Shares} {start length a : Nat}

theorem findspace_same (h : Linked m) (start length : Nat) :
    (vmMapFindspace m start length).2 = { m with hint := (vmMapFindspace m start length).2.hint } := by
  rw [vmMapFindspace_eq]
  split
  · rfl
  · have hsame := findspaceBegin_same h (max start m.minOffset)
    generalize findspaceBegin m (max start m.minOffset) = p at hsame ⊢
    obtain ⟨s, q, n⟩ := p
    simp only at hsame ⊢
    split
    · exact hsame
    · show { n with hint := _ } = { m with hint := _ }
      rw [hsame]

/-- The loop begins at the address asked for, or at the end of an entry. -/
theorem findspaceBegin_from (h : Linked m) (s : Nat) : (findspaceBegin m s).1 = s ∨ ∃ x ∈ m.entries, (findspaceBegin m s).1 = x.end_ := by
  unfold findspaceBegin
  split
  · rcases h.firstFree.cases with hfree | ⟨e, he, hfree⟩
    · rw [hfree]
      exact .inl rfl
    · obtain ⟨b, r, hm⟩ := List.append_of_mem he
      rw [hfree, if_pos (by simp), end_middle hm h.nodup]
      exact .inr ⟨e, he, rfl⟩
  · have hl := lookup_spec h s
    generalize vmMapLookupEntry m s = p at hl ⊢
    obtain ⟨found, q, n⟩ := p
    obtain ⟨hloc, hsame, -, -⟩ := hl
    simp only at hloc hsame ⊢
    have hn : n.entries = m.entries := by rw [hsame]
    cases found with
    | true =>
      obtain ⟨b, e, r, hm, rfl, -, -⟩ := hloc.entry
      rw [if_pos rfl, end_middle (hn.trans hm) (hn ▸ h.nodup)]
      exact .inr ⟨e, by simp [hm], rfl⟩
    | false => exact .inl rfl

theorem mem_after (m : Map) (q : Ref) {x : Entry} (hx : x ∈ (m.after q).2) : x ∈ m.entries := by
  cases q with
  | none => exact hx
  | some i => exact (List.dropWhile_sublist _).subset (List.mem_of_mem_drop hx)

theorem findspace_from (h : Linked m) (ha : (vmMapFindspace m start length).1 = some a) :
    a = max start m.minOffset ∨ ∃ x ∈ m.entries, a = x.end_ := by
  rw [vmMapFindspace_fst] at ha
  split at ha
  · cases ha
  · have hfrom := findspaceBegin_from h (max start m.minOffset)
    have hsame := findspaceBegin_same h (max start m.minOffset)
    generalize findspaceBegin m (max start m.minOffset) = p at ha hfrom hsame
    obtain ⟨s, q, n⟩ := p
    simp only at ha hfrom hsame
    obtain ⟨⟨a', q'⟩, hloop, rfl⟩ := Option.map_eq_some_iff.1 ha
    have hn : n.entries = m.entries := by rw [hsame]
    rcases findspaceLoop_from _ _ _ _ _ _ _ hloop with rfl | ⟨x, hx, rfl⟩
    · exact hfrom
    · exact .inr ⟨x, hn ▸ mem_after n q hx, rfl⟩

end Find

/-! ## The steps -/

/-- The operation links no entry behind the header away from `min_offset` while the hint is at the header. -/
def AnchorsMap (m : Map) : Op → Prop
  | .insert _ _ _ _ start end_ => Opens m start end_ → start = m.minOffset
  | .find _ _ _ _ addr length findSpace =>
    Opens m (if findSpace then max addr m.minOffset else addr)
        (vmAdd (if findSpace then max addr m.minOffset else addr) length) →
      (if findSpace then max addr m.minOffset else addr) = m.minOffset
  | _ => True

def Anchors (st : Option Sys) (op : Op) : Prop :=
  ∀ sys m, st = some sys → op.index.bind (sys.maps[·]?) = some m → AnchorsMap m op

/-- The search for space is first-fit in all maps. -/
def FirstFits (st : Option Sys) : Prop :=
  ∀ sys, st = some sys → ∀ m ∈ sys.maps, ∀ start length : UInt32, 0 < length → FirstFit m start.toNat length.toNat

/-- The invariant of a run. -/
def FilledInv (st : Option Sys) : Prop := ∃ sys, st = some sys ∧ SysInv sys ∧ ∀ m ∈ sys.maps, Filled m

section Steps
variable {others : List Window} {m : Map} {sh : Shares} {sys : Sys} {i : Nat}

theorem filled_find (env : Env) (h : Good others ⟨m, sh⟩) (hf : Filled m) (object : Option Nat) (offset addr length : Nat)
    (findSpace : Bool) (hok : AnchorsMap m (.find i env object offset addr length findSpace)) :
    Filled (vmMapFind env m object offset addr length findSpace).2.2 := by
  unfold vmMapFind
  cases findSpace with
  | false => exact filled_insert env h hf object offset hok
  | true =>
    rw [if_pos rfl]
    have hgood := good_findspace h addr length
    have hsame := findspace_same h.linked addr length
    have hfrom : ∀ a, (vmMapFindspace m addr length).1 = some a → a = max addr m.minOffset ∨ ∃ x ∈ m.entries, a = x.end_ :=
      fun _ => findspace_from h.linked
    generalize vmMapFindspace m addr length = p at hgood hsame hfrom ⊢
    obtain ⟨found, n⟩ := p
    simp only at hgood hsame hfrom ⊢
    have hkeeps : Keeps m n := hsame ▸ keeps_same rfl rfl rfl
    have hfilled := hkeeps.filled h.linked.firstFree hf
    cases found with
    | none => exact hfilled
    | some a =>
      refine filled_insert env hgood hfilled object offset fun hopen => ?_
      have hopen : Opens m a (vmAdd a length) := by
        rw [hsame] at hopen
        exact ⟨hopen.header, hopen.min, hopen.nonempty, hopen.max, hopen.first⟩
      rcases hfrom a rfl with rfl | ⟨x, hx, rfl⟩
      · exact (hok hopen).trans hkeeps.minOffset.symm
      · -- An entry that ends at the address is before the new one.
        have := hopen.first x hx
        have := hopen.nonempty
        have := (h.linked.ordered.mem hx).2.1
        omega

theorem findspace_opens (h : Linked m) {addr length : Nat}
    (hopen : Opens m (max addr m.minOffset) (vmAdd (max addr m.minOffset) length)) (hne : max addr m.minOffset ≠ m.minOffset) :
    (vmMapFindspace m addr length).1 = some (max addr m.minOffset) := by
  obtain ⟨hmiss, hprev⟩ := hopen.lookup h
  have hsame := (lookup_spec h (max addr m.minOffset)).same
  have hlt := hopen.nonempty
  have hmax := hopen.max
  rw [vmMapFindspace_fst, if_neg (by omega), findspaceBegin, if_neg hne]
  simp only
  rw [hmiss, hprev, hsame]
  simp only [Bool.false_eq_true, if_false]
  show (findspaceLoop m.maxOffset length (max addr m.minOffset) none m.entries).map (·.1) = _
  have hfirst := hopen.first
  cases hes : m.entries with
  | nil =>
    rw [findspaceLoop, if_neg (by omega)]
    rfl
  | cons e es =>
    have := hfirst e (by simp [hes])
    rw [findspaceLoop, if_neg (by omega), if_pos this]
    rfl

theorem not_filled_find (env : Env) (h : Good others ⟨m, sh⟩) (object : Option Nat) (offset addr length : Nat) (findSpace : Bool)
    (hok : ¬AnchorsMap m (.find i env object offset addr length findSpace)) :
    ¬Filled (vmMapFind env m object offset addr length findSpace).2.2 := by
  obtain ⟨hopen, hne⟩ := Classical.not_imp.1 hok
  unfold vmMapFind
  cases findSpace with
  | false => exact not_filled_insert env h.linked object offset hopen hne
  | true =>
    simp only [if_true] at hopen hne ⊢
    have hgood := good_findspace h addr length
    have hsame := findspace_same h.linked addr length
    have hfound := findspace_opens h.linked hopen hne
    generalize vmMapFindspace m addr length = p at hgood hsame hfound ⊢
    obtain ⟨found, n⟩ := p
    simp only at hgood hsame hfound ⊢
    subst hfound
    have hlow : n.minOffset = m.minOffset := by rw [hsame]
    refine not_filled_insert env hgood.linked object offset ?_ (by rw [hlow]; exact hne)
    rw [hsame]
    exact ⟨hopen.header, hopen.min, hopen.nonempty, hopen.max, hopen.first⟩

end Steps

/-! ## Forking -/

section Fork

theorem samePlace_copyEntry (env : Env) (s d : Entry) :
    s.SamePlace (vmMapCopyEntry env s d).1 := by
  unfold vmMapCopyEntry
  split
  · split <;> exact ⟨rfl, rfl, rfl⟩
  · exact ⟨rfl, rfl, rfl⟩

theorem clipEnd_firstFree (c : Cursor) (a : Nat) : (c.clipEnd a).map.firstFree = c.map.firstFree := by
  unfold Cursor.clipEnd
  split
  · split <;> rfl
  · rfl

theorem copyTurn_firstFree {srcEnd dstEnd srcStart : Nat} {src dst src' dst' : Cursor}
    (h : copyTurn env srcEnd dstEnd src dst = some (srcStart, src', dst')) :
    dst'.map.firstFree = dst.map.firstFree := by
  unfold copyTurn at h
  simp only at h
  repeat' split at h
  all_goals cases h
  show (Cursor.clipEnd _ _).map.firstFree = _
  rw [clipEnd_firstFree, clipEnd_firstFree]

theorem copyLoop_firstFree {srcEnd dstEnd : Nat} : ∀ (n srcStart : Nat) (src dst : Cursor) (src' dst' : Map),
    copyLoop env srcEnd dstEnd n srcStart src dst = some (src', dst') → dst'.firstFree = dst.map.firstFree := by
  intro n
  induction n with
  | zero =>
    intro srcStart src dst src' dst' h
    rw [copyLoop] at h
    split at h
    · cases h
    · cases h
      rfl
  | succ n ih =>
    intro srcStart src dst src' dst' h
    rw [copyLoop] at h
    split at h
    · obtain ⟨⟨next, src1, dst1⟩, hturn, hloop⟩ := Option.bind_eq_some_iff.1 h
      exact (ih _ _ _ _ _ hloop).trans (copyTurn_firstFree hturn)
    · cases h
      rfl

theorem copyCursor_firstFree {m : Map} {a : Nat} {c : Cursor} (h : copyCursor m a = some c) :
    c.map.firstFree = m.firstFree := by
  have hl : (vmMapLookupEntry m a).2.2.firstFree = m.firstFree := by
    unfold vmMapLookupEntry
    simp only
    generalize (if m.hint = none then m.next none else m.hint) = cur
    split
    · split <;> rfl
    · rfl
  unfold copyCursor at h
  simp only at h
  repeat' split at h
  all_goals cases h
  all_goals exact hl

theorem vmMapCopy_firstFree {dst src src' dst' : Map} {dstAddr len srcAddr : Nat}
    (h : vmMapCopy env dst src dstAddr len srcAddr = some (src', dst')) : dst'.firstFree = dst.firstFree := by
  unfold vmMapCopy at h
  simp only at h
  split at h
  · cases h
    rfl
  · split at h
    · rename_i hcursor
      exact (copyLoop_firstFree _ _ _ _ _ _ h).trans (copyCursor_firstFree hcursor)
    · cases h

/-- A fork changes the old entries in their places and leaves the hint of the new map alone. -/
theorem forkLoop_frame (env : Env) (es : List Entry) : ∀ (new : Map) (sh : Shares) (es' : List Entry) (new' : Map) (sh' : Shares),
    forkLoop env es new sh = some (es', new', sh') → List.Forall₂ Entry.SamePlace es es' ∧ new'.firstFree = new.firstFree := by
  induction es with
  | nil =>
    intro new sh es' new' sh' h
    cases h
    exact ⟨.nil, rfl⟩
  | cons old es ih =>
    intro new sh es' new' sh' h
    have hself : old.SamePlace old := ⟨rfl, rfl, rfl⟩
    have hnext : ∀ {x : Entry} {m : Map} {s : Shares},
        (forkLoop env es m s).map (fun r => (x :: r.1, r.2)) = some (es', new', sh') → old.SamePlace x →
        m.firstFree = new.firstFree → List.Forall₂ Entry.SamePlace (old :: es) es' ∧ new'.firstFree = new.firstFree := by
      intro x m s hrun hx hm
      obtain ⟨⟨es1, m1, s1⟩, hloop, heq⟩ := Option.map_eq_some_iff.1 hrun
      cases heq
      obtain ⟨hplaces, hfree⟩ := ih _ _ _ _ _ hloop
      exact ⟨.cons hx hplaces, hfree.trans hm⟩
    unfold forkLoop at h
    split at h
    · cases h
    · exact hnext h hself rfl
    · exact hnext h hself rfl
    · exact hnext h ⟨rfl, rfl, rfl⟩ rfl
    · obtain ⟨share, -, h⟩ := Option.bind_eq_some_iff.1 h
      obtain ⟨⟨src, dst⟩, hcopy, h⟩ := Option.bind_eq_some_iff.1 h
      have hfree := vmMapCopy_firstFree hcopy
      exact hnext h hself hfree
    · exact hnext h (samePlace_copyEntry env _ _) rfl

theorem fork_frame {w w' : Space} {m : Map} (h : vmspaceFork env w = some (w', m)) :
    Keeps w.map w'.map ∧ m.firstFree = none := by
  obtain ⟨⟨old, new, shares⟩, hloop, heq⟩ := Option.bind_eq_some_iff.1 h
  cases heq
  obtain ⟨hplaces, hfree⟩ := forkLoop_frame env _ _ _ _ _ _ hloop
  exact ⟨keeps_touch w.map hplaces, hfree⟩

end Fork

/-! ## Runs -/

section Runs
variable {sys : Sys} {i : Nat} {m : Map}

theorem filled_on (h : SysInv sys) (hall : ∀ m ∈ sys.maps, Filled m) {f : Space → Space}
    (hf : ∀ m others, sys.maps[i]? = some m → Good others ⟨m, sys.shares⟩ → Filled m → Filled (f ⟨m, sys.shares⟩).map) :
    ∀ m ∈ (sys.on i f).maps, Filled m := by
  unfold Sys.on
  split
  · exact hall
  · rename_i m hm
    obtain ⟨l₁, l₂, heq, hset⟩ := split_at hm
    rw [hset]
    intro n hn
    rcases List.mem_append.1 hn with hn | hn
    · exact hall n (by simp [heq, hn])
    · rcases List.mem_cons.1 hn with rfl | hn
      · exact hf m _ hm (h.good heq) (hall m (by simp [heq]))
      · exact hall n (by simp [heq, hn])

theorem filled_fork (hall : ∀ m ∈ sys.maps, Filled m) (h : SysInv sys) {sys' : Sys}
    (hrun : sys.fork i env = some sys') : ∀ m ∈ sys'.maps, Filled m := by
  unfold Sys.fork at hrun
  split at hrun
  · cases hrun
    exact hall
  · rename_i m hm
    obtain ⟨⟨w, new⟩, hfork, rfl⟩ := Option.map_eq_some_iff.1 hrun
    obtain ⟨hkeeps, hfree⟩ := fork_frame hfork
    obtain ⟨l₁, l₂, heq, hset⟩ := split_at hm
    intro n hn
    simp only [hset, List.mem_append, List.mem_cons, List.not_mem_nil, or_false] at hn
    rcases hn with (hn | rfl | hn) | rfl
    · exact hall n (by simp [heq, hn])
    · exact hkeeps.filled (h.linked m (by simp [heq])).1.firstFree (hall m (by simp [heq]))
    · exact hall n (by simp [heq, hn])
    · intro e _ he
      rw [hfree] at he
      cases he

theorem filledInv_init : FilledInv (some Sys.init) := by
  obtain ⟨sys, heq, hsys⟩ := runInv_init
  cases heq
  exact ⟨_, rfl, hsys, nofun⟩

theorem filledInv_step (st : Option Sys) (op : Op) (h : FilledInv st) (hspares : Spares st op) (hok : Anchors st op) :
    FilledInv (step st op) := by
  obtain ⟨sys, rfl, hsys, hall⟩ := h
  obtain ⟨sys', hstep, hsys'⟩ := runInv_step (some sys) op ⟨sys, rfl, hsys⟩ hspares
  refine ⟨sys', hstep, hsys', ?_⟩
  cases op with
  | init min max =>
    cases hstep
    intro n hn
    rcases List.mem_append.1 hn with hn | hn
    · exact hall n hn
    · rw [List.mem_singleton.1 hn]
      exact fun e he => by cases he
  | find i env object offset addr length findSpace =>
    cases hstep
    exact filled_on hsys hall fun m others hm hg hf => filled_find env hg hf _ _ _ _ _ (hok sys m rfl hm)
  | insert i env object offset start end_ =>
    cases hstep
    exact filled_on hsys hall fun m others hm hg hf => filled_insert env hg hf _ _ (hok sys m rfl hm)
  | delete i start end_ =>
    cases hstep
    exact filled_on hsys hall fun m others _ hg hf => filled_delete hg hf _ _
  | remove i start end_ =>
    cases hstep
    exact filled_on hsys hall fun m others _ hg hf => filled_delete hg hf _ _
  | protect i start end_ newProt setMax =>
    cases hstep
    exact filled_on hsys hall fun m others _ hg hf => (kept_protect (.refl hg) _ _ _ _).filled hg hf
  | inherit i start end_ newInheritance =>
    cases hstep
    exact filled_on hsys hall fun m others _ hg hf => (kept_inherit (.refl hg) _ _ _).filled hg hf
  | pageable i env start end_ newPageable =>
    cases hstep
    refine filled_on hsys hall fun m others hm hg hf => ?_
    cases newPageable with
    | true => exact (kept_unwire (.refl hg) _ _).filled hg hf
    | false => exact (kept_wire env (.refl hg) _ _ (hspares sys m rfl hm)).filled hg hf
  | simplify i start =>
    cases hstep
    exact filled_on hsys hall fun m others _ hg hf => filled_simplify hg hf _
  | lookupEntry i address =>
    cases hstep
    exact filled_on hsys hall fun m others _ hg hf => (keeps_lookup hg.linked _).filled hg.linked.firstFree hf
  | fork i env => exact filled_fork hall hsys hstep

theorem firstFits_of_filled (st : Option Sys) (h : FilledInv st) : FirstFits st := by
  obtain ⟨sys, rfl, hsys, hall⟩ := h
  rintro _ ⟨⟩ m hm
  exact (firstFit_iff (hsys.linked m hm).1).2 (hall m hm)

/-- After a step that `Anchors` excludes the search skips a gap. -/
theorem not_firstFits_step (st : Option Sys) (op : Op) (h : FilledInv st) (hspares : Spares st op) (hbad : ¬Anchors st op) :
    ¬FirstFits (step st op) := by
  obtain ⟨sys, rfl, hsys, hall⟩ := h
  simp only [Anchors, Option.some.injEq, not_forall] at hbad
  obtain ⟨_, m, rfl, hm, hbad⟩ := hbad
  obtain ⟨sys', hstep, hsys'⟩ := runInv_step (some sys) op ⟨sys, rfl, hsys⟩ hspares
  intro hfits
  have hfilled : ∀ n ∈ sys'.maps, Filled n := fun n hn => (firstFit_iff (hsys'.linked n hn).1).1 (hfits sys' hstep n hn)
  cases op with
  | insert i env object offset start end_ =>
    have hm : sys.maps[i]? = some m := hm
    obtain ⟨l₁, l₂, heq, hset⟩ := split_at hm
    obtain ⟨hopen, hne⟩ := Classical.not_imp.1 hbad
    refine not_filled_insert env (hsys.linked m (by simp [heq])).1 object offset hopen hne (hfilled _ ?_)
    cases hstep
    rw [Sys.on, hm]
    simp only [hset]
    exact List.mem_append_right _ (.head _)
  | find i env object offset addr length findSpace =>
    have hm : sys.maps[i]? = some m := hm
    obtain ⟨l₁, l₂, heq, hset⟩ := split_at hm
    refine not_filled_find env (hsys.good heq) object offset addr length findSpace hbad (hfilled _ ?_)
    cases hstep
    rw [Sys.on, hm]
    simp only [hset]
    exact List.mem_append_right _ (.head _)
  | _ => exact hbad trivial

/-- In a run whose maps are well formed throughout, the search for space is first-fit in every state, for every
start and every length but 0, if and only if no step links an entry behind the header away from `min_offset`
while the hint is at the header. -/
theorem findspace_runs (ops : List Op) (hok : ∀ st ∈ states step (some Sys.init) ops, MapsOk st) :
    (∀ st ∈ states step (some Sys.init) ops, FirstFits st) ↔ Along step Anchors (some Sys.init) ops := by
  have hspares := (states_iff_ok runInv_step mapsOk_of_runInv not_mapsOk_step ops runInv_init).1 hok
  exact states_iff_along filledInv_step firstFits_of_filled not_firstFits_step filledInv_init hspares

/-- A page is mapped at `start`. -/
def insertRun (start : Nat) : List Op := [.init 0 0x100000, .insert 0 plainEnv none 0 start (start + 0x1000)]

theorem mapsOk_insertRun (start : Nat) : ∀ st ∈ states step (some Sys.init) (insertRun start), MapsOk st :=
  (states_iff_ok runInv_step mapsOk_of_runInv not_mapsOk_step _ runInv_init).2
    ⟨fun _ _ _ _ => trivial, fun _ _ _ _ => trivial, trivial⟩

theorem findspace_runs_start : FirstFits (final step (some Sys.init) (insertRun 0)) := by
  refine (findspace_runs (insertRun 0) (mapsOk_insertRun 0)).2 ⟨fun _ _ _ _ => trivial, ?_, trivial⟩ _ (final_mem_states _ _ _)
  rintro _ m ⟨⟩ hm -
  cases hm
  rfl

/-- With a page mapped behind a gap of a page, a page from the start on is found behind it. -/
theorem gap_skipped : (∀ st ∈ states step (some Sys.init) (insertRun 0x1000), MapsOk st) ∧
    ∃ sys m, final step (some Sys.init) (insertRun 0x1000) = some sys ∧ m ∈ sys.maps ∧
      (vmMapFindspace m 0 0x1000).1 = some 0x2000 ∧ 0 ∈ fitting m 0 0x1000 ∧
      ¬∀ st ∈ states step (some Sys.init) (insertRun 0x1000), FirstFits st := by
  obtain ⟨sys, m, hsys, hm, hfound, hfit⟩ : ∃ sys m, final step (some Sys.init) (insertRun 0x1000) = some sys ∧ m ∈ sys.maps ∧
      (vmMapFindspace m 0 0x1000).1 = some 0x2000 ∧ 0 ∈ fitting m 0 0x1000 := by
    refine ⟨_, _, rfl, .head _, by decide, ?_⟩
    exact ⟨Nat.le_refl _, by decide, by decide, by decide⟩
  refine ⟨mapsOk_insertRun _, sys, m, hsys, hm, hfound, hfit, fun hfits => ?_⟩
  have hexact := hfits _ (final_mem_states step (some Sys.init) (insertRun 0x1000)) sys hsys m hm 0 0x1000 (by decide)
  have hleast := (hexact.found 0x2000).1 hfound
  exact absurd (hleast.2 hfit) (by decide)

end Runs

end BsdKernel.VmMap
