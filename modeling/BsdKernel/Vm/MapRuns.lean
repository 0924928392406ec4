import BsdKernel.Vm.MapFork
import BsdKernel.Lib.Trace
/-!
# Runs of map operations

The maps made by `vm_map_init` and `vmspace_fork`, and any sequence of the operations on
them. A state is `none` once the kernel has panicked. Two steps spoil a map:
`vmspace_fork` gives the new map the size of the old one although it leaves out the
entries that are not inherited, and `vm_map_pageable` asked to wire an empty range inside
an entry cuts an empty entry out of it. `map_runs` says that these are all.
-/

namespace BsdKernel.VmMap

open Lib

/-! ## The system -/

structure Sys where
  maps : List Map
  shares : Shares

def Sys.init : Sys := ⟨[], ⟨fun _ => none, 0⟩⟩

inductive Op
  | init (min max : UInt32)
  | find (i : Nat) (env : Env) (object : Option Nat) (offset addr length : Nat) (findSpace : Bool)
  | insert (i : Nat) (env : Env) (object : Option Nat) (offset start end_ : Nat)
  | delete (i : Nat) (start end_ : Nat)
  | remove (i : Nat) (start end_ : Nat)
  | protect (i : Nat) (start end_ newProt : Nat) (setMax : Bool)
  | inherit (i : Nat) (start end_ newInheritance : Nat)
  | pageable (i : Nat) (env : Env) (start end_ : Nat) (newPageable : Bool)
  | simplify (i : Nat) (start : Nat)
  | lookupEntry (i : Nat) (address : Nat)
  | fork (i : Nat) (env : Env)

/-- An operation on the map with the number `i`, if there is one. -/
def Sys.on (sys : Sys) (i : Nat) (f : Space → Space) : Sys :=
  match sys.maps[i]? with
  | none => sys
  | some m => ⟨sys.maps.set i (f ⟨m, sys.shares⟩).map, (f ⟨m, sys.shares⟩).shares⟩

/-- `vmspace_fork` of the map with the number `i`. -/
def Sys.fork (sys : Sys) (i : Nat) (env : Env) : Option Sys :=
  match sys.maps[i]? with
  | none => some sys
  | some m => (vmspaceFork env ⟨m, sys.shares⟩).map fun r => ⟨sys.maps.set i r.1.map ++ [r.2], r.1.shares⟩

def step : Option Sys → Op → Option Sys
  | none, _ => none
  | some sys, .init min max => some { sys with maps := sys.maps ++ [vmMapInit min.toNat max.toNat] }
  | some sys, .find i env object offset addr length findSpace =>
    some (sys.on i fun w => { w with map := (vmMapFind env w.map object offset addr length findSpace).2.2 })
  | some sys, .insert i env object offset start end_ =>
    some (sys.on i fun w => { w with map := (vmMapInsert env w.map object offset start end_).2 })
  | some sys, .delete i start end_ => some (sys.on i fun w => vmMapDelete w start end_)
  | some sys, .remove i start end_ => some (sys.on i fun w => vmMapRemove w start end_)
  | some sys, .protect i start end_ newProt setMax =>
    some (sys.on i fun w => (vmMapProtect w start end_ newProt setMax).2)
  | some sys, .inherit i start end_ newInheritance =>
    some (sys.on i fun w => (vmMapInherit w start end_ newInheritance).2)
  | some sys, .pageable i env start end_ newPageable =>
    some (sys.on i fun w => (vmMapPageable env w start end_ newPageable).2)
  | some sys, .simplify i start => some (sys.on i fun w => { w with map := vmMapSimplify w.map start })
  | some sys, .lookupEntry i address =>
    some (sys.on i fun w => { w with map := (vmMapLookupEntry w.map address).2.2 })
  | some sys, .fork i env => sys.fork i env

/-- The entries are in order, the summaries are right and the hints are alive. -/
structure MapOk (m : Map) : Prop where
  increasing : m.entries.Pairwise fun a b => a.start < b.start
  nonempty : ∀ e ∈ m.entries, e.start < e.end_
  disjoint : m.entries.Pairwise fun a b => a.end_ ≤ b.start
  inside : ∀ e ∈ m.entries, m.minOffset ≤ e.start ∧ e.end_ ≤ m.maxOffset
  nentries : m.nentries = m.entries.length
  size : m.size = total m.entries
  hint : m.hint = none ∨ ∃ e ∈ m.entries, m.hint = some e.id
  firstFree : m.firstFree = none ∨ ∃ e ∈ m.entries, m.firstFree = some e.id

/-- The kernel is running and every map is as it should be. -/
def MapsOk (st : Option Sys) : Prop := ∃ sys, st = some sys ∧ ∀ m ∈ sys.maps, MapOk m

/-- A fork leaves no entry out, and no empty range inside an entry is wired. -/
def SparesMap (m : Map) : Op → Prop
  | .fork _ _ => ∀ e ∈ m.entries, e.inheritance ≠ .none
  | .pageable _ _ start end_ false => ¬EmptyInside m (rangeCheck m start end_).1 (rangeCheck m start end_).2
  | _ => True

/-- The map an operation is about. -/
def Op.index : Op → Option Nat
  | .init _ _ => none
  | .find i .. | .insert i .. | .delete i .. | .remove i .. | .protect i .. | .inherit i .. | .pageable i ..
  | .simplify i .. | .lookupEntry i .. | .fork i .. => some i

def Spares (st : Option Sys) (op : Op) : Prop :=
  ∀ sys m, st = some sys → op.index.bind (sys.maps[·]?) = some m → SparesMap m op

/-! ## Steps that keep the maps in order -/

structure SysInv (sys : Sys) : Prop where
  linked : ∀ m ∈ sys.maps, Linked m ∧ m.size = total m.entries ∧ ∀ e ∈ m.entries, e.isSubMap = false
  shares : SharesOk (sys.maps.flatMap fun m => windows m.entries) sys.shares

section Step
variable {sys : Sys} {i : Nat} {m : Map}

theorem split_at (h : sys.maps[i]? = some m) :
    ∃ l₁ l₂, sys.maps = l₁ ++ m :: l₂ ∧ ∀ m', sys.maps.set i m' = l₁ ++ m' :: l₂ := by
  obtain ⟨hlt, heq⟩ := List.getElem?_eq_some_iff.1 h
  refine ⟨sys.maps.take i, sys.maps.drop (i + 1), ?_, fun m' => List.set_eq_take_append_cons_drop .. |>.trans (if_pos hlt)⟩
  rw [← heq, List.getElem_cons_drop, List.take_append_drop]

theorem windows_maps (l₁ l₂ : List Map) (m : Map) : ((l₁ ++ m :: l₂).flatMap fun m => windows m.entries).Perm
    (windows m.entries ++ (l₁ ++ l₂).flatMap fun m => windows m.entries) := by
  simp only [List.flatMap_append, List.flatMap_cons]
  exact List.perm_append_comm_assoc ..

theorem SysInv.good {l₁ l₂ : List Map} (h : SysInv sys) (hm : sys.maps = l₁ ++ m :: l₂) :
    Good ((l₁ ++ l₂).flatMap fun m => windows m.entries) ⟨m, sys.shares⟩ := by
  obtain ⟨h1, h2, h3⟩ := h.linked m (by simp [hm])
  exact ⟨h1, h2, h3, (hm ▸ h.shares).perm (windows_maps l₁ l₂ m)⟩

theorem SysInv.replace {l₁ l₂ : List Map} {w : Space} (h : SysInv sys) (hm : sys.maps = l₁ ++ m :: l₂)
    (hw : Good ((l₁ ++ l₂).flatMap fun m => windows m.entries) w) : SysInv ⟨l₁ ++ w.map :: l₂, w.shares⟩ := by
  refine ⟨fun n hn => ?_, hw.shares.perm (windows_maps l₁ l₂ w.map).symm⟩
  simp only [List.mem_append, List.mem_cons] at hn
  rcases hn with hn | rfl | hn
  · exact h.linked n (by simp [hm, hn])
  · exact ⟨hw.linked, hw.size, hw.noSub⟩
  · exact h.linked n (by simp [hm, hn])

theorem sysInv_on (h : SysInv sys) {f : Space → Space}
    (hf : ∀ m others, sys.maps[i]? = some m → Good others ⟨m, sys.shares⟩ → Good others (f ⟨m, sys.shares⟩)) :
    SysInv (sys.on i f) := by
  unfold Sys.on
  split
  · exact h
  · rename_i m hm
    obtain ⟨l₁, l₂, heq, hset⟩ := split_at hm
    rw [hset]
    exact h.replace heq (hf m _ hm (h.good heq))

/-- After a fork the old map is in order, and the new one but for its size. -/
theorem fork_spec (h : SysInv sys) (hm : sys.maps[i]? = some m) (env : Env) :
    ∃ sys' new, sys.fork i env = some sys' ∧ new ∈ sys'.maps ∧ new.size = total m.entries ∧
      total new.entries = total (inherited m.entries) ∧ (new.size = total new.entries → SysInv sys') := by
  obtain ⟨l₁, l₂, heq, hset⟩ := split_at hm
  obtain ⟨w', new, hrun, hgood, hlink, hsub, hsize, htotal⟩ := vmspaceFork_spec env (h.good heq)
  refine ⟨⟨l₁ ++ w'.map :: l₂ ++ [new], w'.shares⟩, new, ?_, by simp, ?_, htotal, fun hs => ?_⟩
  · rw [Sys.fork, hm]
    simp only [hrun, hset, Option.map_some]
  · exact hsize.trans (h.linked m (by simp [heq])).2.1
  · refine ⟨fun n hn => ?_, ?_⟩
    · rcases List.mem_append.1 hn with hn | hn
      · simp only [List.mem_append, List.mem_cons] at hn
        rcases hn with hn | rfl | hn
        · exact h.linked n (by simp [heq, hn])
        · exact ⟨hgood.linked, hgood.size, hgood.noSub⟩
        · exact h.linked n (by simp [heq, hn])
      · rw [List.mem_singleton.1 hn]
        exact ⟨hlink, hs, hsub⟩
    · refine hgood.shares.perm ?_
      have hcat : ((l₁ ++ w'.map :: l₂ ++ [new]).flatMap fun m => windows m.entries) =
          ((l₁ ++ w'.map :: l₂).flatMap fun m => windows m.entries) ++ windows new.entries := by
        rw [List.flatMap_append, List.flatMap_singleton]
      rw [hcat]
      refine List.Perm.trans ?_ ((windows_maps l₁ l₂ w'.map).symm.append_right _)
      rw [List.append_assoc]
      exact List.perm_append_comm.append_left _

/-- What is inherited is as much as there is, unless an entry is not inherited. -/
theorem total_inherited_iff {es : List Entry} (h : ∀ e ∈ es, e.start < e.end_) :
    total (inherited es) = total es ↔ ∀ e ∈ es, e.inheritance ≠ .none := by
  have hle : ∀ l : List Entry, (∀ e ∈ l, e.start < e.end_) → total (inherited l) ≤ total l := by
    intro l hl
    induction l with
    | nil => exact Int.le_refl _
    | cons e l ih =>
      have hrest := ih fun x hx => hl x (by simp [hx])
      have hlt := hl e (by simp)
      rw [inherited_cons]
      split <;> simp only [total_cons] <;> omega
  constructor
  · intro heq e he hi
    obtain ⟨b, r, rfl⟩ := List.append_of_mem he
    have hb := hle b fun x hx => h x (by simp [hx])
    have hr := hle r fun x hx => h x (by simp [hx])
    have hlt := h e he
    have hin : inherited (b ++ e :: r) = inherited b ++ inherited r := by simp [inherited, hi]
    rw [hin] at heq
    simp only [total_append, total_cons] at heq
    omega
  · intro hall
    rw [inherited, List.filter_eq_self.2 fun e he => by simpa using hall e he]

end Step

/-! ## Wiring an empty range -/

theorem wireEntries_empty (env : Env) {a : Nat} {b r : List Entry} {e : Entry} (w : Space) (hlo : e.start < a)
    (hhi : a < e.end_) :
    ∃ front e' back w', wireEntries env a a b.reverse (e :: r) w = (true, b ++ front :: e' :: back :: r, w') ∧
      e'.start = a ∧ e'.end_ = a ∧ e'.id = e.id ∧ front.id = w.map.nextId := by
  have hs : e.Same (if e.wiredCount = 0 then e.resolve env e.protection else e) := by
    split
    · exact same_resolve env _ e
    · exact Entry.Same.refl e
  rw [wireEntries, if_pos hlo]
  simp only
  generalize (if e.wiredCount = 0 then e.resolve env e.protection else e) = e1 at hs ⊢
  have hstart : clipStart w e1 a =
      ([{ e1.clipFront a with id := w.map.nextId }], e1.clipBack a, w.cloned e1) := by
    rw [clipStart, if_pos]
    rw [hs.start]
    exact hlo
  have hend : clipEnd (w.cloned e1) (e1.clipBack a) a =
      ((e1.clipBack a).clipFront a, [{ (e1.clipBack a).clipBack a with id := (w.cloned e1).map.nextId }],
        (w.cloned e1).cloned (e1.clipBack a)) := by
    rw [clipEnd, if_pos]
    show a < e1.end_
    rw [hs.end_]
    exact hhi
  simp only [hstart, hend]
  exact ⟨{ e1.clipFront a with id := w.map.nextId },
    { (e1.clipBack a).clipFront a with wiredCount := ((e1.clipBack a).clipFront a).wiredCount + 1 },
    { (e1.clipBack a).clipBack a with id := (w.cloned e1).map.nextId }, (w.cloned e1).cloned (e1.clipBack a),
    by simp, rfl, rfl, hs.id, rfl⟩

/-- Wiring an empty range strictly inside an entry leaves an empty entry behind. -/
theorem wire_empty (env : Env) {others : List Window} {w : Space} (h : Good others w) {start end_ : Nat}
    (hbad : EmptyInside w.map (rangeCheck w.map start end_).1 (rangeCheck w.map start end_).2) :
    ∃ e ∈ (wire env w start end_).2.map.entries, e.end_ = e.start := by
  unfold wire
  simp only
  generalize rangeCheck w.map start end_ = range at hbad ⊢
  obtain ⟨a, end_⟩ := range
  obtain ⟨heq, x, hx, hxlo, hxhi⟩ := hbad
  simp only at heq hxlo hxhi ⊢
  subst heq
  have hl := lookup_spec h.linked a
  have hg := good_lookup h a
  have hloc := hl.locates
  have hfound : (vmMapLookupEntry w.map a).1 = true := by
    by_contra hmiss
    obtain ⟨b, r, hm, -, hno⟩ := hloc
    rw [if_neg hmiss] at hno
    rcases List.mem_append.1 (hm ▸ hx) with hx | hx
    · have := hno.1 x hx
      omega
    · have := hno.2 x hx
      omega
  rw [hfound] at hloc
  obtain ⟨b, e, r, hm, href, hlo, hhi⟩ := hloc.entry
  -- The entry found is `x`, so `a` is inside of it.
  have hin : e.start < a := by
    have hp := List.pairwise_append.1 (hm ▸ h.linked.ordered).pairwise
    rw [hm] at hx
    simp only [List.mem_append, List.mem_cons] at hx
    rcases hx with hx | rfl | hx
    · have := (hp.2.2 x hx e (by simp)).2
      omega
    · exact hxlo
    · have := ((List.pairwise_cons.1 hp.2.1).1 x hx).2
      omega
  have hm' : (vmMapLookupEntry w.map a).2.2.entries = b ++ e :: r := by rw [hl.same]; exact hm
  obtain ⟨front, e', back, w', hrun, hs', he', hid, hfront⟩ :=
    wireEntries_empty env (b := b) (r := r) { w with map := (vmMapLookupEntry w.map a).2.2 } hin hhi
  have hfresh : e'.id ∉ ids (b ++ [front]) := by
    have hnb := not_mem_before (hm' ▸ hg.linked.nodup)
    have hlt := hg.linked.fresh e.id (by simp [hm'])
    simp only [ids_append, ids_cons, ids_nil, List.mem_append, List.mem_singleton, not_or, hid]
    exact ⟨hnb, by omega⟩
  have hat : ((w'.withEntries (b ++ front :: e' :: back :: r)).map.at_ (some e.id)).2 = e' :: back :: r := by
    have hw := (takeWhile_id (e := e') (r := back :: r) (b ++ [front]) hfresh).2
    rw [Map.at_, ← hid]
    simpa using hw
  rw [if_pos hfound]
  simp only [href, at_middle hm' hg.linked.nodup, hrun, hat]
  rw [wireFaults, if_neg (by omega)]
  exact ⟨e', by simp, he'.trans hs'.symm⟩

/-! ## Runs -/

theorem Live.cases {es : List Entry} {r : Ref} (h : Live es r) : r = none ∨ ∃ e ∈ es, r = some e.id := by
  cases r with
  | none => exact .inl rfl
  | some i =>
    obtain ⟨e, he, hi⟩ := List.mem_map.1 (h i rfl)
    exact .inr ⟨e, he, by rw [hi]⟩

theorem mapOk_of_linked {m : Map} (h : Linked m) (hs : m.size = total m.entries) : MapOk m where
  increasing := h.ordered.pairwise.imp fun hab => hab.1
  nonempty _ he := (h.ordered.mem he).2.1
  disjoint := h.ordered.pairwise.imp fun hab => hab.2
  inside _ he := ⟨(h.ordered.mem he).1, (h.ordered.mem he).2.2⟩
  nentries := h.nentries
  size := hs
  hint := h.hint.cases
  firstFree := h.firstFree.cases

/-- The invariant of a run. -/
def RunInv (st : Option Sys) : Prop := ∃ sys, st = some sys ∧ SysInv sys

theorem runInv_init : RunInv (some Sys.init) :=
  ⟨Sys.init, rfl, by simp [Sys.init], by simp [Sys.init], by simp [Sys.init]⟩

theorem runInv_step (st : Option Sys) (op : Op) (h : RunInv st) (hok : Spares st op) : RunInv (step st op) := by
  obtain ⟨sys, rfl, hsys⟩ := h
  cases op with
  | init min max =>
    refine ⟨_, rfl, fun m hm => ?_, ?_⟩
    · rcases List.mem_append.1 hm with hm | hm
      · exact hsys.linked m hm
      · rw [List.mem_singleton.1 hm]
        exact ⟨linked_init (UInt32.toNat_lt max), rfl, by simp [vmMapInit]⟩
    · simpa [vmMapInit, windows] using hsys.shares
  | find i env object offset addr length findSpace =>
    exact ⟨_, rfl, sysInv_on hsys fun m others _ hg => good_find env hg _ _ _ _ _⟩
  | insert i env object offset start end_ =>
    exact ⟨_, rfl, sysInv_on hsys fun m others _ hg => good_insert env hg _ _ _ _⟩
  | delete i start end_ => exact ⟨_, rfl, sysInv_on hsys fun m others _ hg => good_delete hg _ _⟩
  | remove i start end_ => exact ⟨_, rfl, sysInv_on hsys fun m others _ hg => good_remove hg _ _⟩
  | protect i start end_ newProt setMax =>
    exact ⟨_, rfl, sysInv_on hsys fun m others _ hg => (kept_protect (.refl hg) _ _ _ _).good⟩
  | inherit i start end_ newInheritance =>
    exact ⟨_, rfl, sysInv_on hsys fun m others _ hg => (kept_inherit (.refl hg) _ _ _).good⟩
  | pageable i env start end_ newPageable =>
    refine ⟨_, rfl, sysInv_on hsys fun m others hm hg => ?_⟩
    cases newPageable with
    | true => exact (kept_unwire (.refl hg) _ _).good
    | false => exact (kept_wire env (.refl hg) _ _ (hok sys m rfl hm)).good
  | simplify i start => exact ⟨_, rfl, sysInv_on hsys fun m others _ hg => good_simplify hg _⟩
  | lookupEntry i address => exact ⟨_, rfl, sysInv_on hsys fun m others _ hg => good_lookup hg _⟩
  | fork i env =>
    cases hm : sys.maps[i]? with
    | none => exact ⟨sys, by simp [step, Sys.fork, hm], hsys⟩
    | some m =>
      obtain ⟨sys', new, hrun, -, hsize, htotal, hinv⟩ := fork_spec hsys hm env
      refine ⟨sys', hrun, hinv ?_⟩
      have hpos := fun e he => ((hsys.linked m (List.mem_of_getElem? hm)).1.ordered.mem (e := e) he).2.1
      rw [hsize, htotal, (total_inherited_iff hpos).2 (hok sys m rfl hm)]

theorem mapsOk_of_runInv (st : Option Sys) (h : RunInv st) : MapsOk st := by
  obtain ⟨sys, rfl, hsys⟩ := h
  exact ⟨sys, rfl, fun m hm => mapOk_of_linked (hsys.linked m hm).1 (hsys.linked m hm).2.1⟩

/-- A step that `Spares` excludes spoils a map. -/
theorem not_mapsOk_step (st : Option Sys) (op : Op) (h : RunInv st) (hbad : ¬Spares st op) : ¬MapsOk (step st op) := by
  obtain ⟨sys, rfl, hsys⟩ := h
  simp only [Spares, Option.some.injEq, not_forall] at hbad
  obtain ⟨_, m, rfl, hm, hbad⟩ := hbad
  rintro ⟨sys', hstep, hall⟩
  unfold SparesMap at hbad
  split at hbad
  · rename_i i env
    have hm : sys.maps[i]? = some m := hm
    obtain ⟨sys2, new, hrun, hnew, hsize, htotal, -⟩ := fork_spec hsys hm env
    have heq : sys' = sys2 := Option.some.inj (hstep.symm.trans hrun)
    have hpos := fun e he => ((hsys.linked m (List.mem_of_getElem? hm)).1.ordered.mem (e := e) he).2.1
    refine hbad ((total_inherited_iff hpos).1 ?_)
    rw [← htotal, ← hsize]
    exact (hall new (heq ▸ hnew)).size.symm
  · rename_i i env start end_
    have hm : sys.maps[i]? = some m := hm
    obtain ⟨l₁, l₂, heq, hset⟩ := split_at hm
    obtain ⟨e, he, hempty⟩ := wire_empty env (hsys.good heq) (not_not.1 hbad)
    have hsys' : sys' = sys.on i fun w => (vmMapPageable env w start end_ false).2 := (Option.some.inj hstep).symm
    have hmem : (wire env ⟨m, sys.shares⟩ start end_).2.map ∈ sys'.maps := by
      rw [hsys', Sys.on, hm]
      simp only [hset]
      exact List.mem_append_right _ (List.mem_cons_self ..)
    have := (hall _ hmem).nonempty e he
    omega
  · exact hbad trivial

/-- In a run of the map operations the kernel does not panic and every map has its
entries in order, its summaries right and its hints alive in every state, if and only if
the run forks no map with an entry that is not inherited and wires no empty range
strictly inside an entry. -/
theorem map_runs (ops : List Op) :
    (∀ st ∈ states step (some Sys.init) ops, MapsOk st) ↔ Along step Spares (some Sys.init) ops :=
  states_iff_ok runInv_step mapsOk_of_runInv not_mapsOk_step ops runInv_init

/-- The answers of the other layers in the two runs below. -/
def plainEnv : Env where
  garbage := ⟨0, 0, 0, .vmObject none, 0, false, false, 0, 0, .none, 0⟩
  coalesce _ _ _ _ := false
  shadow _ _ _ := 0
  allocate _ := 0
  copy o offset _ := (o, offset, false)
  faultWire _ _ := ([], .success)

/-- Two pages are mapped, the second is not to be inherited, and the process forks. -/
def forkRun : List Op :=
  [.init 0 0x100000, .find 0 plainEnv none 0 0 0x2000 true, .inherit 0 0x1000 0x2000 2, .fork 0 plainEnv]

/-- Two pages are mapped, and no page is wired at the start of the second. -/
def wireRun : List Op :=
  [.init 0 0x100000, .find 0 plainEnv none 0 0 0x2000 true, .pageable 0 plainEnv 0x1000 0x1000 false]

/-- The size of a map and where its entries are. -/
def Map.layout (m : Map) : Int × List (Nat × Nat) := (m.size, m.entries.map fun e => (e.start, e.end_))

theorem mem_final {ops : List Op} {sys : Sys} {p : Int × List (Nat × Nat)} (h : final step (some Sys.init) ops = some sys)
    (hp : p ∈ ((final step (some Sys.init) ops).elim [] Sys.maps).map Map.layout) : ∃ m ∈ sys.maps, m.layout = p := by
  rw [h] at hp
  exact List.mem_map.1 hp

/-- The new map says two pages and has one; the wired map has an empty entry. -/
theorem map_runs_spoiled :
    ¬MapsOk (final step (some Sys.init) forkRun) ∧ ¬MapsOk (final step (some Sys.init) wireRun) := by
  constructor
  · rintro ⟨sys, hsys, hall⟩
    obtain ⟨m, hm, hlay⟩ := mem_final (p := (0x2000, [(0, 0x1000)])) hsys (by decide +kernel)
    have hsize := (hall m hm).size
    have htotal : total m.entries = ((m.layout.2.map fun p => (p.2 : Int) - p.1)).sum := by
      simp [total, Map.layout, Function.comp_def]
    rw [htotal, show m.size = m.layout.1 from rfl, hlay] at hsize
    exact absurd hsize (by decide)
  · rintro ⟨sys, hsys, hall⟩
    obtain ⟨m, hm, hlay⟩ := mem_final (p := (0x2000, [(0, 0x1000), (0x1000, 0x1000), (0x1000, 0x2000)])) hsys
      (by decide +kernel)
    have hin : (0x1000, 0x1000) ∈ m.layout.2 := by simp [hlay]
    obtain ⟨e, he, heq⟩ := List.mem_map.1 hin
    have hne := (hall m hm).nonempty e he
    simp only [Prod.mk.injEq] at heq
    omega

/-- In every state of such a run the entries of all maps count for the sharing maps: each sharing map that is there is
referred to by as many entries as its `ref_count` says, at least one, and has an entry for every address; and what an
entry refers to is there and reaches as far as the entry. -/
theorem share_runs (ops : List Op) (h : Along step Spares (some Sys.init) ops) :
    ∀ st ∈ states step (some Sys.init) ops, ∃ sys, st = some sys ∧
      SharesOk (sys.maps.flatMap fun m => windows m.entries) sys.shares := by
  intro st hst
  obtain ⟨sys, he, hsys⟩ := states_of_along runInv_step runInv_init h st hst
  exact ⟨sys, he, hsys.shares⟩

/-- Two pages are mapped and shared with a child. -/
def sharedRun : List Op :=
  [.init 0 0x100000, .find 0 plainEnv none 0 0 0x2000 true, .inherit 0 0x1000 0x2000 0]

theorem share_runs_child : ∃ sys, final step (some Sys.init) (sharedRun ++ [.fork 0 plainEnv]) = some sys ∧
    SharesOk (sys.maps.flatMap fun m => windows m.entries) sys.shares := by
  have halong : Along step Spares (some Sys.init) (sharedRun ++ [.fork 0 plainEnv]) := by
    refine (along_append step Spares _ _ _).2
      ⟨⟨fun _ _ _ _ => trivial, fun _ _ _ _ => trivial, fun _ _ _ _ => trivial, trivial⟩, fun sys m hs hm => ?_, trivial⟩
    have hall : (((final step (some Sys.init) sharedRun).elim [] Sys.maps)[0]?).all
        (fun m => m.entries.all fun e => e.inheritance ≠ .none) = true := by decide +kernel
    rw [hs, Option.elim_some, show sys.maps[0]? = some m from hm] at hall
    simpa [SparesMap] using hall
  exact share_runs _ halong _ (final_mem_states _ _ _)

end BsdKernel.VmMap
