import BsdKernel.Kern.UnpGc
/-!
# The mark phase

`unp_gc` marks exactly the files that `ReachRcv` reaches (`markPhase_spec`). A marked file
with `FDEFER` is still to be scanned, and `unp_defer` counts these; whatever else is marked
has the files of its queue marked (`MarkInv`). A pass scans every file that was
deferred when it began, so one that leaves some deferred has marked another file.
-/

namespace BsdKernel.Unp

variable {s t : Sys} {f g : Nat}

/-- Only the marks differ. -/
structure SameFiles (s t : Sys) : Prop where
  filehead : t.filehead = s.filehead
  sockets : t.sockets = s.sockets
  socket : t.socket = s.socket
  file : ∀ f, (t.file f).kind = (s.file f).kind ∧ (t.file f).count = (s.file f).count ∧
    (t.file f).msgcount = (s.file f).msgcount

theorem SameFiles.refl (s : Sys) : SameFiles s s := ⟨rfl, rfl, rfl, fun _ => ⟨rfl, rfl, rfl⟩⟩

theorem SameFiles.trans {u : Sys} (h : SameFiles s t) (h' : SameFiles t u) : SameFiles s u :=
  ⟨h'.filehead.trans h.filehead, h'.sockets.trans h.sockets, h'.socket.trans h.socket, fun f =>
    ⟨(h'.file f).1.trans (h.file f).1, (h'.file f).2.1.trans (h.file f).2.1, (h'.file f).2.2.trans (h.file f).2.2⟩⟩

theorem SameFiles.data (h : SameFiles s t) (f : Nat) : t.data f = s.data f := by
  rw [Sys.data, Sys.data, (h.file f).1]

/-- The files that a scan of `f` marks. -/
def Sys.children (s : Sys) (f : Nat) : List Nat :=
  match s.data f with
  | none => []
  | some so => if (s.socket so).rights then (s.socket so).rcv.flatten else []

theorem scanFile_eq (s : Sys) (f : Nat) : scanFile s f = (s.children f).foldl unpMark s := by
  unfold scanFile Sys.children unpScan
  cases s.data f with
  | none => rfl
  | some so =>
    simp only
    split <;> rfl

theorem SameFiles.children (h : SameFiles s t) (f : Nat) : t.children f = s.children f := by
  unfold Sys.children
  rw [h.data f, h.socket]

theorem mem_children {fds : Nat → Nat} (h : Correct s fds) : g ∈ s.children f ↔ s.Queued f g := by
  unfold Sys.children Sys.Queued
  cases hd : s.data f with
  | none => simp
  | some so =>
    simp only [Option.some.injEq, exists_eq_left']
    by_cases hr : (s.socket so).rights = true
    · rw [if_pos hr]
    · have hempty : (s.socket so).rcv.flatten = [] := by
        by_contra hne
        exact hr (h.queues so hne).2.1
      rw [if_neg hr, hempty]

/-! ## Marking the files of a queue -/

/-- `unp_defer` counts the deferred files, and these are marked. -/
structure Counted (s : Sys) : Prop where
  files : s.filehead.Nodup
  grey : ∀ f ∈ s.filehead, (s.file f).defer = true → (s.file f).mark = true
  deferred : s.unpDefer = (s.filehead.countP fun f => (s.file f).defer : Nat)

theorem countP_add_one {l : List Nat} {p q : Nat → Bool} (hl : l.Nodup) (hg : g ∈ l) (h : p g = false)
    (h' : q g = true) (hp : ∀ f, f ≠ g → q f = p f) : l.countP q = l.countP p + 1 := by
  induction l with
  | nil => cases hg
  | cons a l ih =>
    obtain ⟨ha, hl⟩ := List.nodup_cons.1 hl
    rcases List.mem_cons.1 hg with rfl | hg
    · have hrest : l.countP q = l.countP p :=
        List.countP_congr fun f hf => by rw [hp f fun he => ha (he ▸ hf)]
      rw [List.countP_cons_of_pos h', List.countP_cons_of_neg (by simp [h]), hrest]
    · have hne : a ≠ g := fun he => ha (he ▸ hg)
      have ih := ih hl hg
      by_cases hpa : p a = true
      · rw [List.countP_cons_of_pos hpa, List.countP_cons_of_pos (by rwa [hp a hne]), ih]
      · rw [List.countP_cons_of_neg hpa, List.countP_cons_of_neg (by rwa [hp a hne]), ih]

@[simp] theorem setFile_same (s : Sys) (f : Nat) (g : File → File) : (s.setFile f g).file f = g (s.file f) :=
  Function.update_self ..

theorem setFile_ne {f' : Nat} (h : f' ≠ f) (s : Sys) (g : File → File) : (s.setFile f g).file f' = s.file f' :=
  Function.update_of_ne h ..

theorem setFile_sameFiles (s : Sys) (f : Nat) (g : File → File)
    (hg : ∀ fp, (g fp).kind = fp.kind ∧ (g fp).count = fp.count ∧ (g fp).msgcount = fp.msgcount) (d : Int) :
    SameFiles s { s.setFile f g with unpDefer := d } := by
  refine ⟨rfl, rfl, rfl, fun f' => ?_⟩
  by_cases hf : f' = f
  · subst hf
    simp only [setFile_same]
    exact hg _
  · simp only [setFile_ne hf]
    trivial

theorem unpMark_same (s : Sys) (g : Nat) : SameFiles s (unpMark s g) := by
  unfold unpMark
  split
  · exact .refl s
  · exact setFile_sameFiles s g (fun fp => { fp with mark := true, defer := true }) (fun _ => ⟨rfl, rfl, rfl⟩) _

theorem unpMark_mark (s : Sys) (g f : Nat) :
    ((unpMark s g).file f).mark = true ↔ (s.file f).mark = true ∨ f = g := by
  unfold unpMark
  split
  · rename_i hm
    exact ⟨.inl, fun h => h.elim id fun he => he ▸ hm⟩
  · by_cases hf : f = g
    · subst hf
      simp
    · simp [setFile_ne hf, hf]

theorem unpMark_defer (s : Sys) (g f : Nat) :
    ((unpMark s g).file f).defer = true ↔ (s.file f).defer = true ∨ (f = g ∧ (s.file f).mark = false) := by
  unfold unpMark
  split
  · rename_i hm
    refine ⟨.inl, fun h => h.elim id ?_⟩
    rintro ⟨rfl, hf⟩
    simp [hm] at hf
  · rename_i hm
    by_cases hf : f = g
    · subst hf
      simp [hm]
    · simp [setFile_ne hf, hf]

theorem unpMark_counted (h : Counted s) (hg : g ∈ s.filehead) : Counted (unpMark s g) := by
  have hsame := unpMark_same s g
  refine ⟨by rw [hsame.filehead]; exact h.files, fun f hf hd => ?_, ?_⟩
  · rw [hsame.filehead] at hf
    rcases (unpMark_defer s g f).1 hd with hd | ⟨rfl, -⟩
    · exact (unpMark_mark s g f).2 (.inl (h.grey f hf hd))
    · exact (unpMark_mark s f f).2 (.inr rfl)
  · unfold unpMark
    split
    · exact h.deferred
    · rename_i hm
      have hnot : (s.file g).defer = false := by
        by_contra hd
        exact hm (h.grey g hg (by simpa using hd))
      have hcount := countP_add_one (p := fun f => (s.file f).defer)
        (q := fun f => ((s.setFile g fun fp => { fp with mark := true, defer := true }).file f).defer) h.files hg hnot
        (by simp) fun f hf => by rw [setFile_ne hf]
      simp only [h.deferred]
      rw [show (s.setFile g fun fp => { fp with mark := true, defer := true }).filehead = s.filehead from rfl, hcount]
      push_cast
      rfl

/-- A scan marks and defers what was not marked. -/
theorem foldl_unpMark (l : List Nat) (s : Sys) :
    SameFiles s (l.foldl unpMark s) ∧
      (∀ f, ((l.foldl unpMark s).file f).mark = true ↔ (s.file f).mark = true ∨ f ∈ l) ∧
      (∀ f, ((l.foldl unpMark s).file f).defer = true ↔ (s.file f).defer = true ∨ (f ∈ l ∧ (s.file f).mark = false)) ∧
      (Counted s → (∀ g ∈ l, g ∈ s.filehead) → Counted (l.foldl unpMark s)) := by
  induction l generalizing s with
  | nil => exact ⟨.refl s, by simp, by simp, fun h _ => h⟩
  | cons g l ih =>
    obtain ⟨hsame, hmark, hdefer, hcounted⟩ := ih (unpMark s g)
    have hs := unpMark_same s g
    refine ⟨hs.trans hsame, fun f => ?_, fun f => ?_, fun hc hl => ?_⟩
    · rw [List.foldl_cons, hmark, unpMark_mark, List.mem_cons, or_assoc]
    · rw [List.foldl_cons, hdefer, unpMark_defer, List.mem_cons]
      by_cases hm : (s.file f).mark = true
      · have hm' : ((unpMark s g).file f).mark = true := (unpMark_mark s g f).2 (.inl hm)
        simp [hm, hm']
      · by_cases hf : f = g
        · simp [hf ▸ hm, hf]
        · have hm' : ¬((unpMark s g).file f).mark = true := by rw [unpMark_mark]; simp [hm, hf]
          simp [hf, hm, hm']
    · refine hcounted (unpMark_counted hc (hl g List.mem_cons_self)) fun x hx => ?_
      rw [hs.filehead]
      exact hl x (List.mem_cons_of_mem _ hx)

/-! ## What can be reached is open -/

section Passes
variable {s₀ s : Sys} {fds : Nat → Nat}

theorem refs_pos {so : Nat} (hso : so ∈ s₀.sockets) (hf : f ∈ (s₀.socket so).rcv.flatten) : 0 < s₀.refs f := by
  have hmem : (s₀.socket so).rcv.flatten.count f ∈ s₀.sockets.map fun so => (s₀.socket so).rcv.flatten.count f :=
    List.mem_map.2 ⟨so, hso, rfl⟩
  exact Nat.lt_of_lt_of_le (List.count_pos_iff.2 hf) (List.le_sum_of_mem hmem)

theorem Correct.open_of_pos (hc : Correct s₀ fds) (h : 0 < fds f ∨ 0 < s₀.refs f) :
    f ∈ s₀.filehead ∧ 0 < (s₀.file f).count := by
  have hf : f ∈ s₀.filehead := by
    by_contra hf
    have := hc.gone f hf
    omega
  have := (hc.counts f hf).1
  exact ⟨hf, by omega⟩

theorem Correct.refs_of_queue (hc : Correct s₀ fds) {so : Nat} (hf : f ∈ (s₀.socket so).rcv.flatten) :
    0 < s₀.refs f :=
  refs_pos (hc.queues so (List.ne_nil_of_mem hf)).1 hf

theorem ReachRcv.isOpen (hc : Correct s₀ fds) (h : ReachRcv s₀ fds f) : f ∈ s₀.filehead ∧ 0 < (s₀.file f).count := by
  cases h with
  | held h => exact hc.open_of_pos (.inl h)
  | queued _ h =>
    obtain ⟨so, -, hf⟩ := h
    exact hc.open_of_pos (.inr (hc.refs_of_queue hf))

/-! ## A pass over the files -/

/-- What is marked can be reached, and unless it is deferred so is marked what is in its queue. -/
structure MarkInv (s₀ : Sys) (fds : Nat → Nat) (s : Sys) : Prop where
  same : SameFiles s₀ s
  counted : Counted s
  sound : ∀ f ∈ s₀.filehead, (s.file f).mark = true → ReachRcv s₀ fds f
  black : ∀ f ∈ s₀.filehead, (s.file f).mark = true → (s.file f).defer = false →
    ∀ g ∈ s₀.children f, (s.file g).mark = true

/-- A scan of a file makes up for what its mark promises. -/
theorem scanFile_inv (hc : Correct s₀ fds) (hf : f ∈ s₀.filehead) (hsame : SameFiles s₀ s) (hcounted : Counted s)
    (hsound : ∀ f ∈ s₀.filehead, (s.file f).mark = true → ReachRcv s₀ fds f)
    (hblack : ∀ f' ∈ s₀.filehead, f' ≠ f → (s.file f').mark = true → (s.file f').defer = false →
      ∀ g ∈ s₀.children f', (s.file g).mark = true) (hm : (s.file f).mark = true) : MarkInv s₀ fds (scanFile s f) := by
  obtain ⟨hs, hmark, hdefer, hcnt⟩ := foldl_unpMark (s.children f) s
  rw [scanFile_eq]
  have hchild : ∀ g ∈ s.children f, ReachRcv s₀ fds g := by
    intro g hg
    rw [hsame.children] at hg
    exact .queued (hsound f hf hm) ((mem_children hc).1 hg)
  refine ⟨hsame.trans hs, hcnt hcounted fun g hg => ?_, fun f' hf' hm' => ?_, fun f' hf' hm' hd' g hg => ?_⟩
  · rw [hsame.filehead]
    exact ((hchild g hg).isOpen hc).1
  · rcases (hmark f').1 hm' with h | h
    · exact hsound f' hf' h
    · exact hchild f' h
  · by_cases hff : f' = f
    · rw [hff, ← hsame.children] at hg
      exact (hmark g).2 (.inr hg)
    · have hnot : ¬((s.file f').defer = true ∨ (f' ∈ s.children f ∧ (s.file f').mark = false)) := by
        rw [← hdefer f', hd']
        exact Bool.false_ne_true
      push Not at hnot
      have hold : (s.file f').mark = true := by
        rcases (hmark f').1 hm' with h | h
        · exact h
        · simpa using hnot.2 h
      exact (hmark g).2 (.inl (hblack f' hf' hff hold (by simpa using hnot.1) g hg))

/-- What a pass over some of the files does: they are no longer deferred and those that
a descriptor holds are marked, and what is deferred for the next pass was not marked. -/
structure Passed (fds : Nat → Nat) (l : List Nat) (s s' : Sys) : Prop where
  mono : ∀ g, (s.file g).mark = true → (s'.file g).mark = true
  roots : ∀ f ∈ l, 0 < fds f → (s'.file f).mark = true
  fresh : ∀ g, (s'.file g).defer = true → (s.file g).mark = false ∨ ((s.file g).defer = true ∧ g ∉ l)

/-- Scanning `f` after its marks are set to `g`. -/
theorem scanFile_passed {g : File → File} {d : Int} (hm : (g (s.file f)).mark = true)
    (hd : (g (s.file f)).defer = false) : Passed fds [f] s (scanFile { s.setFile f g with unpDefer := d } f) := by
  rw [scanFile_eq]
  obtain ⟨-, hmark, hdefer, -⟩ := foldl_unpMark (Sys.children { s.setFile f g with unpDefer := d } f)
    { s.setFile f g with unpDefer := d }
  have hfm : ((s.setFile f g).file f).mark = true := by rw [setFile_same, hm]
  refine ⟨fun f' hm' => (hmark f').2 (.inl ?_), fun f' hf' _ => (hmark f').2 (.inl ?_), fun f' hd' => ?_⟩
  · by_cases hff : f' = f
    · rw [hff]
      exact hfm
    · rwa [setFile_ne hff]
  · rw [List.mem_singleton.1 hf']
    exact hfm
  · by_cases hff : f' = f
    · subst hff
      rcases (hdefer f').1 hd' with h | ⟨-, h⟩
      · simp [hd] at h
      · simp [hm] at h
    · rcases (hdefer f').1 hd' with h | ⟨-, h⟩
      · rw [setFile_ne hff] at h
        exact .inr ⟨h, by simpa using hff⟩
      · rw [setFile_ne hff] at h
        exact .inl h

theorem passed_refl (hroot : 0 < fds f → (s.file f).mark = true) (hd : (s.file f).defer = false) :
    Passed fds [f] s s := by
  refine ⟨fun _ => id, fun f' hf' h => ?_, fun g hg => .inr ⟨hg, fun hmem => ?_⟩⟩
  · rw [List.mem_singleton.1 hf'] at h ⊢
    exact hroot h
  · rw [List.mem_singleton.1 hmem, hd] at hg
    cases hg

/-- A file that can be reached is marked, no longer deferred, and scanned. -/
theorem scanFile_setFile_inv (hc : Correct s₀ fds) (h : MarkInv s₀ fds s) (hf : f ∈ s₀.filehead) {g : File → File}
    {d : Int} (hg : ∀ fp, (g fp).kind = fp.kind ∧ (g fp).count = fp.count ∧ (g fp).msgcount = fp.msgcount)
    (hm : (g (s.file f)).mark = true) (hreach : ReachRcv s₀ fds f)
    (hd : d = (s.filehead.countP fun f' => ((s.setFile f g).file f').defer : Nat)) :
    MarkInv s₀ fds (scanFile { s.setFile f g with unpDefer := d } f) := by
  have hsame := setFile_sameFiles s f g hg d
  refine scanFile_inv hc hf (h.same.trans hsame) ⟨h.counted.files, fun f' hf' hd' => ?_, hd⟩
    (fun f' hf' hm' => ?_) (fun f' hf' hne hm' hd' x hx => ?_) ?_
  · by_cases hff : f' = f
    · subst hff
      simpa using hm
    · simp only [setFile_ne hff] at hd' ⊢
      exact h.counted.grey f' hf' hd'
  · by_cases hff : f' = f
    · exact hff ▸ hreach
    · simp only [setFile_ne hff] at hm'
      exact h.sound f' hf' hm'
  · simp only [setFile_ne hne] at hm' hd'
    have hxm := h.black f' hf' hm' hd' x hx
    by_cases hxf : x = f
    · subst hxf
      simpa using hm
    · simpa only [setFile_ne hxf] using hxm
  · simpa using hm

theorem visit_inv (hc : Correct s₀ fds) (h : MarkInv s₀ fds s) (hf : f ∈ s₀.filehead) :
    MarkInv s₀ fds (visit s f) ∧ Passed fds [f] s (visit s f) := by
  obtain ⟨hcount, hmsg⟩ := hc.counts f hf
  have hhead : s.filehead = s₀.filehead := h.same.filehead
  have hfs : f ∈ s.filehead := hhead ▸ hf
  have hcs : (s.file f).count = (s₀.file f).count := (h.same.file f).2.1
  have hms : (s.file f).msgcount = (s₀.file f).msgcount := (h.same.file f).2.2
  unfold visit
  split_ifs with hzero hdef hmark hin
  · have hm : (s.file f).mark = false := by
      by_contra hm
      have := ((h.sound f hf (by simpa using hm)).isOpen hc).2
      omega
    refine ⟨h, passed_refl (fun hpos => by omega) ?_⟩
    by_contra hd
    simp [h.counted.grey f hfs (by simpa using hd)] at hm
  · -- the file was deferred: one less is to be scanned
    have hm := h.counted.grey f hfs hdef
    have hless := countP_add_one (p := fun f' => ((s.setFile f fun fp => { fp with defer := false }).file f').defer)
      (q := fun f' => (s.file f').defer) h.counted.files hfs (by simp) hdef fun f' hf' => by rw [setFile_ne hf']
    refine ⟨scanFile_setFile_inv hc h hf (g := fun fp => { fp with defer := false }) (fun _ => ⟨rfl, rfl, rfl⟩) hm
      (h.sound f hf hm) ?_, scanFile_passed (g := fun fp => { fp with defer := false }) hm rfl⟩
    rw [h.counted.deferred, hless]
    push_cast
    omega
  · exact ⟨h, passed_refl (fun _ => hmark) (by simpa using hdef)⟩
  · exact ⟨h, passed_refl (fun hpos => by omega) (by simpa using hdef)⟩
  · -- a descriptor holds the file
    have hsame : (s.filehead.countP fun f' => (s.file f').defer) =
        s.filehead.countP fun f' => ((s.setFile f fun fp => { fp with mark := true }).file f').defer := by
      refine List.countP_congr fun f' _ => ?_
      by_cases hff : f' = f
      · rw [hff, setFile_same]
      · rw [setFile_ne hff]
    refine ⟨scanFile_setFile_inv hc h hf (g := fun fp => { fp with mark := true }) (fun _ => ⟨rfl, rfl, rfl⟩) rfl
      (.held (by omega)) ?_, scanFile_passed (g := fun fp => { fp with mark := true }) rfl (by simpa using hdef)⟩
    rw [← hsame]
    exact h.counted.deferred

theorem Passed.append {s' s'' : Sys} {l l' : List Nat} (h : Passed fds l s s') (h' : Passed fds l' s' s'') :
    Passed fds (l ++ l') s s'' := by
  refine ⟨fun g hg => h'.mono g (h.mono g hg), fun f hf hpos => ?_, fun g hg => ?_⟩
  · rcases List.mem_append.1 hf with hf | hf
    · exact h'.mono f (h.roots f hf hpos)
    · exact h'.roots f hf hpos
  · rcases h'.fresh g hg with hg | ⟨hg, hnot⟩
    · left
      by_contra hm
      simp [h.mono g (by simpa using hm)] at hg
    · rcases h.fresh g hg with hg | ⟨hg, hnot'⟩
      · exact .inl hg
      · exact .inr ⟨hg, fun hmem => (List.mem_append.1 hmem).elim hnot' hnot⟩

theorem foldl_visit_inv (hc : Correct s₀ fds) {l : List Nat} (hl : ∀ f ∈ l, f ∈ s₀.filehead) (h : MarkInv s₀ fds s) :
    MarkInv s₀ fds (l.foldl visit s) ∧ Passed fds l s (l.foldl visit s) := by
  induction l generalizing s with
  | nil => exact ⟨h, fun _ => id, fun f hf => absurd hf (List.not_mem_nil), fun g hg => .inr ⟨hg, List.not_mem_nil⟩⟩
  | cons f l ih =>
    obtain ⟨h₁, hp₁⟩ := visit_inv hc h (hl f List.mem_cons_self)
    obtain ⟨h₂, hp₂⟩ := ih (fun f' hf' => hl f' (List.mem_cons_of_mem _ hf')) h₁
    exact ⟨h₂, hp₁.append hp₂⟩

/-! ## All passes -/

/-- How many files are not marked. -/
def unmarked (s : Sys) : Nat := s.filehead.countP fun f => !(s.file f).mark

/-- A pass that leaves a file deferred has marked it. -/
theorem Passed.unmarked_lt {s' : Sys} (h : Passed fds s.filehead s s') (hhead : s'.filehead = s.filehead)
    (hfiles : s.filehead.Nodup) (hf : f ∈ s.filehead) (hd : (s'.file f).defer = true) (hm : (s'.file f).mark = true) :
    unmarked s' < unmarked s := by
  have hold : (s.file f).mark = false := by
    rcases h.fresh f hd with hold | ⟨-, hnot⟩
    · exact hold
    · exact absurd hf hnot
  have hone := countP_add_one (p := fun g => !(s'.file g).mark) (q := fun g => !(s'.file g).mark || g == f) hfiles hf
    (by simp [hm]) (by simp) fun g hg => by simp [hg]
  have hle : (s.filehead.countP fun g => !(s'.file g).mark || g == f) ≤ s.filehead.countP fun g => !(s.file g).mark := by
    refine List.countP_mono_left fun g _ hg => ?_
    simp only [Bool.or_eq_true, Bool.not_eq_true', beq_iff_eq] at hg ⊢
    rcases hg with hg | rfl
    · by_contra hm
      simp [h.mono g (by simpa using hm)] at hg
    · exact hold
  unfold unmarked
  rw [hhead]
  omega

theorem markLoop_spec (hc : Correct s₀ fds) (n : Nat) (h : MarkInv s₀ fds s) (hn : unmarked s < n) :
    MarkInv s₀ fds (markLoop n s) ∧ (markLoop n s).unpDefer = 0 ∧
      ∀ f ∈ s₀.filehead, 0 < fds f → ((markLoop n s).file f).mark = true := by
  induction n generalizing s with
  | zero => omega
  | succ n ih =>
    obtain ⟨h', hp⟩ := foldl_visit_inv hc (fun f hf => h.same.filehead ▸ hf) h
    have hhead : (s.filehead.foldl visit s).filehead = s.filehead := by
      rw [h'.same.filehead, h.same.filehead]
    simp only [markLoop]
    split_ifs with hdone
    · exact ⟨h', hdone, fun f hf => hp.roots f (h.same.filehead.symm ▸ hf)⟩
    · have hsome : 0 < (s.filehead.foldl visit s).filehead.countP fun f => ((s.filehead.foldl visit s).file f).defer := by
        have := h'.counted.deferred
        omega
      obtain ⟨f, hf, hd⟩ := List.countP_pos_iff.1 hsome
      rw [hhead] at hf
      have hm := h'.counted.grey f (hhead.symm ▸ hf) hd
      have hlt := hp.unmarked_lt hhead h.counted.files hf hd hm
      exact ih h' (by omega)

theorem foldl_unmark (l : List Nat) (s : Sys) :
    SameFiles s (l.foldl unmark s) ∧ (l.foldl unmark s).unpDefer = s.unpDefer ∧
      ∀ f, f ∈ l ∨ ((s.file f).mark = false ∧ (s.file f).defer = false) →
        ((l.foldl unmark s).file f).mark = false ∧ ((l.foldl unmark s).file f).defer = false := by
  induction l generalizing s with
  | nil => exact ⟨.refl s, rfl, fun f hf => hf.resolve_left List.not_mem_nil⟩
  | cons g l ih =>
    obtain ⟨hs, hd, hfile⟩ := ih (unmark s g)
    have hs₁ : SameFiles s (unmark s g) :=
      setFile_sameFiles s g (fun fp => { fp with mark := false, defer := false }) (fun _ => ⟨rfl, rfl, rfl⟩) _
    refine ⟨hs₁.trans hs, hd, fun f hf => hfile f ?_⟩
    by_cases hfg : f = g
    · subst hfg
      simp [unmark]
    · simpa [unmark, setFile_ne hfg, hfg] using hf

theorem MarkInv.init (hc : Correct s₀ fds) (hs : SameFiles s₀ s) (hd : s.unpDefer = 0)
    (hclear : ∀ f ∈ s₀.filehead, (s.file f).mark = false ∧ (s.file f).defer = false) : MarkInv s₀ fds s := by
  refine ⟨hs, ⟨by rw [hs.filehead]; exact hc.files, fun f hf hdef => ?_, ?_⟩, fun f hf hm => ?_, fun f hf hm => ?_⟩
  · rw [hs.filehead] at hf
    simp [hclear f hf] at hdef
  · have hnone : (s.filehead.countP fun f => (s.file f).defer) = 0 := by
      refine List.countP_eq_zero.2 fun f hf => ?_
      rw [hs.filehead] at hf
      simp [hclear f hf]
    rw [hnone, hd]
    rfl
  · simp [hclear f hf] at hm
  · simp [hclear f hf] at hm

/-- The mark phase leaves the files as they are, and marks those that can be reached
without going through an accept queue. -/
theorem markPhase_spec (hc : Correct s₀ fds) :
    SameFiles s₀ (markPhase s₀) ∧
      ∀ f ∈ s₀.filehead, ((markPhase s₀).file f).mark = true ↔ ReachRcv s₀ fds f := by
  obtain ⟨hs, hd, hclear⟩ := foldl_unmark s₀.filehead { s₀ with unpDefer := 0 }
  have hinit := MarkInv.init hc ⟨hs.filehead, hs.sockets, hs.socket, hs.file⟩ hd fun f hf => hclear f (.inl hf)
  have hlen : unmarked (s₀.filehead.foldl unmark { s₀ with unpDefer := 0 }) <
      (s₀.filehead.foldl unmark { s₀ with unpDefer := 0 }).filehead.length + 1 := Nat.lt_succ_of_le List.countP_le_length
  obtain ⟨h, hdone, hroots⟩ := markLoop_spec hc _ hinit hlen
  have hnodefer : ∀ f ∈ s₀.filehead, ((markPhase s₀).file f).defer = false := by
    intro f hf
    have hzero : (markPhase s₀).filehead.countP (fun f => ((markPhase s₀).file f).defer) = 0 := by
      have := h.counted.deferred
      rw [hdone] at this
      exact_mod_cast this.symm
    have := List.countP_eq_zero.1 hzero f (h.same.filehead.symm ▸ hf)
    simpa using this
  refine ⟨h.same, fun f hf => ⟨h.sound f hf, fun hr => ?_⟩⟩
  induction hr with
  | held hpos => exact hroots _ hf hpos
  | queued hr hq ih =>
    have hopen := (hr.isOpen hc).1
    exact h.black _ hopen (ih hopen) (hnodefer _ hopen) _ ((mem_children hc).2 hq)

end Passes

end BsdKernel.Unp
