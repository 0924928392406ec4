import BsdKernel.Vm.MapOps
/-!
# Forking a map

`vmspace_fork` builds the new map entry by entry from the old one. `Child` is what is
kept of the new map on the way. Where an entry that refers to a sharing map is copied,
`vm_map_copy` walks both maps at once; it always finds the entries it needs, because a
sharing map that is referred to has no hole.
-/

namespace BsdKernel.VmMap

open VmObject (vmAdd)

/-- The new map so far: no entry ends after `hi`, `T` bytes are mapped, the windows are
`W`. -/
structure Child (hi : Nat) (T : Int) (W : List Window) (m : Map) : Prop where
  linked : Linked m
  ends : ∀ e ∈ m.entries, e.end_ ≤ hi
  mapped : total m.entries = T
  views : windows m.entries = W
  noSub : ∀ e ∈ m.entries, e.isSubMap = false

/-- The bounds and the reference count of a map. -/
structure SameFrame (m m' : Map) : Prop where
  minOffset : m'.minOffset = m.minOffset
  maxOffset : m'.maxOffset = m.maxOffset
  refCount : m'.refCount = m.refCount

section Child
variable {hi : Nat} {T : Int} {W : List Window} {m : Map} {b r : List Entry} {e x y : Entry}

theorem Child.withHint (h : Child hi T W m) {q : Ref} (hq : Live m.entries q) : Child hi T W { m with hint := q } :=
  ⟨h.linked.withHint hq, h.ends, h.mapped, h.views, h.noSub⟩

theorem Child.touch {es : List Entry} (h : Child hi T W m) (ht : List.Forall₂ Entry.Same m.entries es) :
    Child hi T W { m with entries := es } := by
  have hp : List.Forall₂ Entry.SamePlace m.entries es := ht.imp fun _ _ hs => hs.toSamePlace
  refine ⟨linked_touch h.linked hp, fun e he => ?_, (total_touch hp).trans h.mapped, (windows_touch ht).trans h.views,
    fun e he => ?_⟩
  · obtain ⟨x, hx, hs⟩ := mem_of_touch ht.flip he
    rw [hs.end_]
    exact h.ends x hx
  · obtain ⟨x, hx, hs⟩ := mem_of_touch ht.flip he
    exact hs.isSubMap.trans (h.noSub x hx)

/-- An entry that refers to an object is split. -/
theorem Child.split (h : Child hi T W m) (hm : m.entries = b ++ e :: r) (hs : Splits m.nextId e x y)
    (he : e.mapRef = none) (hx : x.object = e.object) (hy : y.object = e.object) :
    Child hi T W { m.linked with entries := b ++ x :: y :: r } := by
  have hwin : e.window = none ∧ x.window = none ∧ y.window = none ∧ x.isSubMap = false ∧ y.isSubMap = false := by
    simp only [Entry.mapRef] at he
    simp only [Entry.window, Entry.isSubMap, hx, hy]
    split at he <;> simp_all
  obtain ⟨hwe, hwx, hwy, hsx, hsy⟩ := hwin
  have hmem : ∀ u ∈ b ++ x :: y :: r, u = x ∨ u = y ∨ u ∈ m.entries := fun u hu => by
    simp only [List.mem_append, List.mem_cons] at hu
    simp only [hm, List.mem_append, List.mem_cons]
    tauto
  have hend := h.ends e (by simp [hm])
  refine ⟨linked_split h.linked hm hs, fun u hu => ?_, ?_, ?_, fun u hu => ?_⟩
  · rcases hmem u hu with rfl | rfl | hu
    · have := hs.right
      omega
    · rw [hs.end_]
      exact hend
    · exact h.ends u hu
  · exact (total_split hs).trans (hm ▸ h.mapped)
  · rw [← h.views, hm, windows_plain b r hwe]
    show windows (b ++ x :: y :: r) = _
    rw [windows_plain b _ hwx, windows_plain b r hwy]
  · rcases hmem u hu with rfl | rfl | hu
    · exact hsx
    · exact hsy
    · exact h.noSub u hu

/-- An entry is linked behind the last one. -/
theorem Child.append {lo : Nat} (h : Child lo T W m) (hid : e.id = m.nextId) (hlo : lo ≤ e.start)
    (hlt : e.start < e.end_) (hmin : m.minOffset ≤ e.start) (hmax : e.end_ ≤ m.maxOffset) (hsub : e.isSubMap = false) :
    Child e.end_ (T + (e.end_ - e.start)) (W ++ e.window.toList) (m.append e) := by
  have hb : ∀ x ∈ m.entries, x.end_ ≤ e.start := fun x hx => Nat.le_trans (h.ends x hx) hlo
  refine ⟨linked_insert h.linked (by simp) hid hlt hmin hmax hb (by simp), fun x hx => ?_, ?_, ?_, fun x hx => ?_⟩
  · rcases List.mem_append.1 hx with hx | hx
    · have := hb x hx
      omega
    · rw [List.mem_singleton.1 hx]
  · show total (m.entries ++ [e]) = _
    rw [total_append, h.mapped, total_cons, total_nil]
    omega
  · show windows (m.entries ++ [e]) = _
    rw [windows_append, h.views]
    cases hw : e.window <;> simp [windows, hw]
  · rcases List.mem_append.1 hx with hx | hx
    · exact h.noSub x hx
    · rw [List.mem_singleton.1 hx]
      exact hsub

end Child

/-! ## Copying out of a sharing map -/

section Copy
variable {hi : Nat} {T : Int} {W : List Window} {m : Map} {b r : List Entry} {e : Entry} {c : Cursor} {a : Nat}

/-- In a map without holes the next entry starts where this one ends. -/
theorem ShareOk.next (h : ShareOk m) (hm : m.entries = b ++ e :: r) (hlt : e.end_ < m.maxOffset) :
    ∃ x r', r = x :: r' ∧ x.start = e.end_ := by
  obtain ⟨hob, h1, h2, h3, hor⟩ := (ordered_append b (e :: r) _).1 (hm ▸ h.linked.ordered)
  have hpair := List.pairwise_append.1 (hm ▸ h.linked.ordered).pairwise
  have hmin := (h.linked.ordered.mem (show e ∈ m.entries by simp [hm])).1
  obtain ⟨x, hx, hxs, hxe⟩ := h.covers e.end_ (by omega) hlt
  rw [hm] at hx
  simp only [List.mem_append, List.mem_cons] at hx
  rcases hx with hx | rfl | hx
  · have := (hpair.2.2 x hx e (by simp)).2
    omega
  · omega
  · cases r with
    | nil => cases hx
    | cons y r' =>
      refine ⟨y, r', rfl, ?_⟩
      rcases List.mem_cons.1 hx with rfl | hx
      · have := hor.1
        omega
      · have := hor.1
        have := hor.2.1
        have := (hor.2.2.2.mem hx).1
        omega

theorem clipEnd_cases (hr : c.rest = e :: r) (a : Nat) :
    (a < e.end_ ∧ c.clipEnd a = { c with
      map := c.map.linked
      rest := e.clipFront a :: { e.clipBack a with id := c.map.nextId } :: r }) ∨
    (e.end_ ≤ a ∧ c.clipEnd a = c) := by
  unfold Cursor.clipEnd
  rw [hr]
  simp only
  split
  · rename_i hlt
    exact .inl ⟨hlt, rfl⟩
  · rename_i hge
    exact .inr ⟨Nat.not_lt.1 hge, rfl⟩

theorem splits_clip (n : Nat) (hlo : e.start < a) (hhi : a < e.end_) :
    Splits n e (e.clipFront a) { e.clipBack a with id := n } :=
  ⟨rfl, rfl, rfl, hlo, hhi, .inr ⟨rfl, rfl⟩⟩

theorem same_copyEntry (env : Env) {s d : Entry} (hs : s.mapRef = none) :
    s.Same (vmMapCopyEntry env s d).1 ∧ d.Same (vmMapCopyEntry env s d).2 ∧
      (vmMapCopyEntry env s d).1.mapRef = none := by
  unfold vmMapCopyEntry
  split
  · rename_i o p hso hdo
    split
    · exact ⟨⟨⟨rfl, rfl, rfl⟩, rfl, rfl⟩, ⟨⟨rfl, rfl, rfl⟩, by simp [Entry.window, hdo], by simp [Entry.isSubMap, hdo]⟩, hs⟩
    · exact ⟨Entry.Same.refl s, ⟨⟨rfl, rfl, rfl⟩, by simp [Entry.window, hdo], by simp [Entry.isSubMap, hdo]⟩, hs⟩
  · exact ⟨Entry.Same.refl s, Entry.Same.refl d, hs⟩

theorem isAMap_of_mapRef (h : e.mapRef = none) : e.isAMap = false := by
  unfold Entry.mapRef at h
  unfold Entry.isAMap
  split at h <;> simp_all

theorem clipEnd_src (h : ShareOk c.close) (hr : c.rest = e :: r) (hlo : e.start < a) :
    ∃ e' r', (c.clipEnd a).rest = e' :: r' ∧ e'.start = e.start ∧ e'.end_ = min e.end_ a ∧
      ShareOk (c.clipEnd a).close ∧ SameFrame c.map (c.clipEnd a).map := by
  have hm : c.close.entries = c.before ++ e :: r := by rw [Cursor.close, hr]
  have hp := h.plain e (by simp [hm])
  rcases clipEnd_cases hr a with ⟨hlt, heq⟩ | ⟨hge, heq⟩
  · rw [heq]
    refine ⟨_, _, rfl, rfl, ?_, h.split hm (splits_clip _ hlo hlt) hp hp, ⟨rfl, rfl, rfl⟩⟩
    exact (Nat.min_eq_right (Nat.le_of_lt hlt)).symm
  · rw [heq]
    exact ⟨e, r, hr, rfl, (Nat.min_eq_left hge).symm, h, ⟨rfl, rfl, rfl⟩⟩

theorem clipEnd_dst (h : Child hi T W c.close) (hr : c.rest = [e]) (hp : e.mapRef = none) (hlo : e.start < a) :
    ∃ e' r', (c.clipEnd a).rest = e' :: r' ∧ e'.mapRef = none ∧ Child hi T W (c.clipEnd a).close ∧
      SameFrame c.map (c.clipEnd a).map ∧
      (a < e.end_ → ∃ x, r' = [x] ∧ x.start = a ∧ x.end_ = e.end_ ∧ x.mapRef = none) := by
  have hm : c.close.entries = c.before ++ e :: [] := by rw [Cursor.close, hr]
  rcases clipEnd_cases hr a with ⟨hlt, heq⟩ | ⟨hge, heq⟩
  · rw [heq]
    exact ⟨_, _, rfl, hp, h.split hm (splits_clip _ hlo hlt) hp rfl rfl, ⟨rfl, rfl, rfl⟩, fun _ => ⟨_, rfl, rfl, rfl, hp⟩⟩
  · rw [heq]
    exact ⟨e, [], hr, hp, h, ⟨rfl, rfl, rfl⟩, fun hlt => absurd hlt (Nat.not_lt.2 hge)⟩

theorem clipEnd_whole (hr : c.rest = e :: r) (ha : e.end_ ≤ a) : c.clipEnd a = c := by
  rcases clipEnd_cases hr a with ⟨hlt, -⟩ | ⟨-, heq⟩
  · omega
  · exact heq

theorem SameFrame.trans {m m' m'' : Map} (h : SameFrame m m') (h' : SameFrame m' m'') : SameFrame m m'' :=
  ⟨h'.minOffset.trans h.minOffset, h'.maxOffset.trans h.maxOffset, h'.refCount.trans h.refCount⟩

/-- Both cursors of `vm_map_copy` at the start of a turn: as much is left to copy in
the one destination entry as in the source. -/
structure AtTurn (srcStart srcEnd dstEnd : Nat) (src dst : Cursor) (s d : Entry) (r : List Entry) : Prop where
  src : src.rest = s :: r
  dst : dst.rest = [d]
  start : s.start = srcStart
  end_ : d.end_ = dstEnd
  left : d.end_ - d.start = srcEnd - srcStart
  plain : d.mapRef = none

/-- One turn of the loop of `vm_map_copy`. -/
theorem copy_turn (env : Env) {srcStart srcEnd dstEnd : Nat} {src dst : Cursor} {s d : Entry} (hlt : srcStart < srcEnd)
    (hsrc : ShareOk src.close) (hdst : Child hi T W dst.close) (hmax : srcEnd ≤ src.map.maxOffset)
    (ht : AtTurn srcStart srcEnd dstEnd src dst s d r) :
    ∃ srcStart' src' dst', copyTurn env srcEnd dstEnd src dst = some (srcStart', src', dst') ∧ srcStart < srcStart' ∧
      ShareOk src'.close ∧ SameFrame src.map src'.map ∧ Child hi T W dst'.close ∧ SameFrame dst.map dst'.map ∧
      (srcStart' < srcEnd → ∃ s d r, AtTurn srcStart' srcEnd dstEnd src' dst' s d r) := by
  have hsm : src.close.entries = src.before ++ s :: r := by rw [Cursor.close, ht.src]
  have hdm : dst.close.entries = dst.before ++ d :: [] := by rw [Cursor.close, ht.dst]
  have hsord := hsrc.linked.ordered.mem (show s ∈ src.close.entries by simp [hsm])
  have hdord := hdst.linked.ordered.mem (show d ∈ dst.close.entries by simp [hdm])
  have hsb : src.map.maxOffset < 2 ^ 32 := hsrc.linked.bound
  have hdb : dst.map.maxOffset < 2 ^ 32 := hdst.linked.bound
  have hdmax : d.end_ ≤ dst.map.maxOffset := hdord.2.2
  have hst := ht.start
  have hleft := ht.left
  obtain ⟨s1, r1, hr1, hs1, he1, hok1, hf1⟩ := clipEnd_src hsrc ht.src (a := srcEnd) (by omega)
  have hend1 : s1.end_ ≤ srcEnd := by omega
  -- The whole destination entry is left, so the source entry is not clipped again.
  have hdst0 : dst.clipEnd dstEnd = dst := clipEnd_whole ht.dst (Nat.le_of_eq ht.end_)
  have hclip : vmAdd s1.start (d.end_ - d.start) = srcEnd := by
    rw [vmAdd, Nat.mod_eq_of_lt] <;> omega
  have hsrc1 : (src.clipEnd srcEnd).clipEnd (vmAdd s1.start (d.end_ - d.start)) = src.clipEnd srcEnd := by
    rw [hclip]
    exact clipEnd_whole hr1 hend1
  have hdclip : vmAdd d.start (s1.end_ - s1.start) = d.start + (s1.end_ - s1.start) := by
    rw [vmAdd, Nat.mod_eq_of_lt]
    omega
  obtain ⟨d1, rd, hrd, hdp, hchild, hfd, hrest⟩ := clipEnd_dst hdst ht.dst ht.plain
    (a := d.start + (s1.end_ - s1.start)) (by omega)
  have hs1m : (src.clipEnd srcEnd).close.entries = (src.clipEnd srcEnd).before ++ s1 :: r1 := by rw [Cursor.close, hr1]
  have hd1m : (dst.clipEnd (d.start + (s1.end_ - s1.start))).close.entries =
      (dst.clipEnd (d.start + (s1.end_ - s1.start))).before ++ d1 :: rd := by rw [Cursor.close, hrd]
  have hs1p := hok1.plain s1 (by simp [hs1m])
  obtain ⟨hsame, hdsame, hsp⟩ := same_copyEntry env (d := d1) hs1p
  refine ⟨s1.end_, (src.clipEnd srcEnd).advance (vmMapCopyEntry env s1 d1).1,
    (dst.clipEnd (d.start + (s1.end_ - s1.start))).advance (vmMapCopyEntry env s1 d1).2, ?_, by omega, ?_, hf1, ?_, hfd,
    fun hmore => ?_⟩
  · simp only [copyTurn, hr1, hdst0, ht.dst, hsrc1, hdclip, hrd, isAMap_of_mapRef hs1p, isAMap_of_mapRef hdp,
      Bool.or_self, Bool.false_eq_true, if_false]
  · have htouch := touch_middle (src.clipEnd srcEnd).before r1 hsame
    rw [← hs1m] at htouch
    have hok := hok1.touch (htouch.imp fun _ _ hs => hs.toSamePlace) fun x hx => ?_
    · simpa [Cursor.close, Cursor.advance, hr1] using hok
    · simp only [List.mem_append, List.mem_cons] at hx
      rcases hx with hx | rfl | hx
      · exact hok1.plain x (by simp [hs1m, hx])
      · exact hsp
      · exact hok1.plain x (by simp [hs1m, hx])
  · have htouch := touch_middle (dst.clipEnd (d.start + (s1.end_ - s1.start))).before rd hdsame
    rw [← hd1m] at htouch
    simpa [Cursor.close, Cursor.advance, hrd] using hchild.touch htouch
  · obtain ⟨x, r', hr', hx⟩ := hok1.next hs1m (by
      have : (src.clipEnd srcEnd).map.maxOffset = src.map.maxOffset := hf1.maxOffset
      show s1.end_ < (src.clipEnd srcEnd).map.maxOffset
      omega)
    obtain ⟨y, hy, hys, hye, hyp⟩ := hrest (by omega)
    have hyleft : y.end_ - y.start = srcEnd - s1.end_ := by
      clear hrest
      rw [hye, hys]
      omega
    refine ⟨x, y, r', ?_, ?_, hx, hye.trans ht.end_, hyleft, hyp⟩
    · simp [Cursor.advance, hr1, hr']
    · simp [Cursor.advance, hrd, hy]

theorem copyLoop_spec (env : Env) (srcEnd dstEnd : Nat) : ∀ (n srcStart : Nat) (src dst : Cursor),
    srcEnd - srcStart ≤ n → ShareOk src.close → Child hi T W dst.close → srcEnd ≤ src.map.maxOffset →
    (srcStart < srcEnd → ∃ s d r, AtTurn srcStart srcEnd dstEnd src dst s d r) →
    ∃ src' dst', copyLoop env srcEnd dstEnd n srcStart src dst = some (src', dst') ∧ ShareOk src' ∧
      SameFrame src.map src' ∧ Child hi T W dst' ∧ SameFrame dst.map dst' := by
  intro n
  induction n with
  | zero =>
    intro srcStart src dst hn hsrc hdst hmax hpos
    rw [copyLoop, if_neg (by omega)]
    exact ⟨_, _, rfl, hsrc, ⟨rfl, rfl, rfl⟩, hdst, ⟨rfl, rfl, rfl⟩⟩
  | succ n ih =>
    intro srcStart src dst hn hsrc hdst hmax hpos
    by_cases hlt : srcStart < srcEnd
    · obtain ⟨s, d, r, ht⟩ := hpos hlt
      obtain ⟨srcStart', src1, dst1, heq, hadv, hsrc1, hf1, hdst1, hfd1, hpos1⟩ :=
        copy_turn env hlt hsrc hdst hmax ht
      obtain ⟨src', dst', hrun, hsrc', hf', hdst', hfd'⟩ :=
        ih srcStart' src1 dst1 (by omega) hsrc1 hdst1 (hf1.maxOffset ▸ hmax) hpos1
      refine ⟨src', dst', ?_, hsrc', hf1.trans hf', hdst', hfd1.trans hfd'⟩
      rw [copyLoop, if_pos hlt, heq]
      exact hrun
    · rw [copyLoop, if_neg hlt]
      exact ⟨_, _, rfl, hsrc, ⟨rfl, rfl, rfl⟩, hdst, ⟨rfl, rfl, rfl⟩⟩

/-- The first lookup of `vm_map_copy` in a sharing map finds the entry. -/
theorem copyCursor_src (h : ShareOk m) (hlo : m.minOffset ≤ a) (hhi : a < m.maxOffset) :
    ∃ c s r, copyCursor m a = some c ∧ c.rest = s :: r ∧ s.start = a ∧ ShareOk c.close ∧ SameFrame m c.map := by
  have hl := lookup_spec h.linked a
  have hok := h.lookup a
  have hfound : (vmMapLookupEntry m a).1 = true := by
    by_contra hmiss
    obtain ⟨b, r, hm, -, hloc⟩ := hl.locates
    obtain ⟨x, hx, h1, h2⟩ := h.covers a hlo hhi
    rw [if_neg hmiss] at hloc
    rcases List.mem_append.1 (hm ▸ hx) with hx | hx
    · have := hloc.1 x hx
      omega
    · have := hloc.2 x hx
      omega
  have hloc := hl.locates
  rw [hfound] at hloc
  obtain ⟨b, e, r, hm, href, h1, h2⟩ := hloc.entry
  have hsame := hl.same
  have hm' : (vmMapLookupEntry m a).2.2.entries = b ++ e :: r := by rw [hsame]; exact hm
  unfold copyCursor
  simp only [href, at_middle hm' hok.linked.nodup]
  have hframe : SameFrame m (vmMapLookupEntry m a).2.2 := by rw [hsame]; exact ⟨rfl, rfl, rfl⟩
  have hp := hok.plain e (by simp [hm'])
  split
  · rename_i hgt
    refine ⟨_, _, _, rfl, rfl, rfl, ?_, ⟨hframe.minOffset, hframe.maxOffset, hframe.refCount⟩⟩
    have hs : Splits (vmMapLookupEntry m a).2.2.nextId e
        { e.clipFront a with id := (vmMapLookupEntry m a).2.2.nextId } (e.clipBack a) :=
      ⟨rfl, rfl, rfl, hgt, h2, .inl ⟨rfl, rfl⟩⟩
    simpa [Cursor.close] using hok.split hm' hs hp hp
  · refine ⟨_, _, _, rfl, rfl, by omega, ?_, hframe⟩
    simp only [Cursor.close, ← hm']
    exact hok

/-- The lookup in the new map finds the entry linked last. -/
theorem copyCursor_dst {d : Entry} (h : Child hi T W m) (hm : m.entries = b ++ [d]) :
    ∃ c, copyCursor m d.start = some c ∧ c.rest = [d] ∧ Child hi T W c.close ∧ SameFrame m c.map := by
  have hl := lookup_spec h.linked d.start
  have hdord := h.linked.ordered.mem (show d ∈ m.entries by simp [hm])
  have hpair := List.pairwise_append.1 (hm ▸ h.linked.ordered).pairwise
  have hfound : (vmMapLookupEntry m d.start).1 = true := by
    by_contra hmiss
    obtain ⟨b', r, hm', -, hloc⟩ := hl.locates
    rw [if_neg hmiss] at hloc
    have hd : d ∈ b' ++ r := hm' ▸ (show d ∈ m.entries by simp [hm])
    rcases List.mem_append.1 hd with hd | hd
    · have := hloc.1 d hd
      omega
    · have := hloc.2 d hd
      omega
  have hloc := hl.locates
  rw [hfound] at hloc
  obtain ⟨b', e, r, hm', href, h1, h2⟩ := hloc.entry
  -- Only the last entry holds its own start.
  have hlast : r = [] ∧ e = d := by
    rcases List.eq_nil_or_concat r with rfl | ⟨r', x, rfl⟩
    · have heq : b ++ [d] = b' ++ [e] := hm.symm.trans hm'
      exact ⟨rfl, (List.append_inj_right' heq rfl |> List.cons.inj).1.symm⟩
    · have heq : b ++ [d] = (b' ++ e :: r') ++ [x] := by rw [← hm, hm']; simp
      have hb := List.append_inj_left' heq rfl
      have := (hpair.2.2 e (by simp [hb]) d (by simp)).2
      omega
  obtain ⟨rfl, rfl⟩ := hlast
  have hsame := hl.same
  have hm2 : (vmMapLookupEntry m e.start).2.2.entries = b' ++ [e] := by rw [hsame]; exact hm'
  have hchild : Child hi T W (vmMapLookupEntry m e.start).2.2 := by
    rw [hsame]
    exact h.withHint hl.live
  unfold copyCursor
  simp only [href, at_middle hm2 hchild.linked.nodup]
  rw [if_neg (Nat.lt_irrefl _)]
  refine ⟨_, rfl, rfl, ?_, by rw [hsame]; exact ⟨rfl, rfl, rfl⟩⟩
  simp only [Cursor.close, ← hm2]
  exact hchild

/-- `vm_map_copy` of a whole window into the entry linked last. -/
theorem vmMapCopy_spec (env : Env) {src dst : Map} {d : Entry} {srcAddr : Nat} (hsrc : ShareOk src)
    (hdst : Child hi T W dst) (hm : dst.entries = b ++ [d]) (hp : d.mapRef = none) (hlo : src.minOffset ≤ srcAddr)
    (hhi : srcAddr + (d.end_ - d.start) ≤ src.maxOffset) :
    ∃ src' dst', vmMapCopy env dst src d.start (d.end_ - d.start) srcAddr = some (src', dst') ∧ ShareOk src' ∧
      SameFrame src src' ∧ Child hi T W dst' ∧ SameFrame dst dst' := by
  have hdord := hdst.linked.ordered.mem (show d ∈ dst.entries by simp [hm])
  have hsb := hsrc.linked.bound
  have hdb := hdst.linked.bound
  have hsend : vmAdd srcAddr (d.end_ - d.start) = srcAddr + (d.end_ - d.start) := Nat.mod_eq_of_lt (by omega)
  have hdend : vmAdd d.start (d.end_ - d.start) = d.end_ := by
    rw [vmAdd, Nat.mod_eq_of_lt] <;> omega
  obtain ⟨cs, s, r, hcs, hrest, hstart, hoks, hfs⟩ := copyCursor_src hsrc hlo (by omega)
  obtain ⟨cd, hcd, hdrest, hokd, hfd⟩ := copyCursor_dst hdst hm
  unfold vmMapCopy
  simp only [hsend, hdend, hcs, hcd]
  rw [if_neg (by omega)]
  obtain ⟨src', dst', hrun, hsrc', hf, hdst', hf'⟩ := copyLoop_spec env (srcAddr + (d.end_ - d.start)) d.end_
    (srcAddr + (d.end_ - d.start) - srcAddr) srcAddr cs cd (Nat.le_refl _) hoks hokd
    (by rw [hfs.maxOffset]; exact hhi) fun _ => ⟨s, d, r, hrest, hdrest, hstart, rfl, by omega, hp⟩
  exact ⟨src', dst', hrun, hsrc', hfs.trans hf, hdst', hfd.trans hf'⟩

end Copy

/-! ## The fork -/

/-- The entries the new map takes over. -/
def inherited (es : List Entry) : List Entry := es.filter (·.inheritance ≠ .none)

theorem inherited_cons (e : Entry) (es : List Entry) :
    inherited (e :: es) = if e.inheritance = .none then inherited es else e :: inherited es := by
  by_cases h : e.inheritance = .none <;> simp [inherited, h]

/-- What the loop of `vmspace_fork` leaves of the old entries, the new map and the
sharing maps. `others` are the windows that are in neither. -/
structure Forked (max : Nat) (T : Int) (others : List Window) (m : Map) (es es' : List Entry) (m' : Map)
    (sh' : Shares) : Prop where
  places : List.Forall₂ Entry.SamePlace es es'
  noSub : ∀ e ∈ es', e.isSubMap = false
  child : Child max (T + total (inherited es)) (windows m'.entries) m'
  frame : SameFrame m m'
  shares : SharesOk (windows es' ++ (windows m'.entries ++ others)) sh'

section Fork
variable {max lo : Nat} {T : Int} {W others : List Window} {new : Map} {sh : Shares} {old : Entry} {rest : List Entry}

theorem shareOk_shareMapOf {o : Option Nat} (ho : old.object = .vmObject o) (hlt : old.start < old.end_)
    (hb : old.end_ < 2 ^ 32) : ShareOk (shareMapOf old) where
  linked := {
    ordered := ⟨Nat.le_refl _, hlt, Nat.le_refl _, trivial⟩
    nodup := by simp [shareMapOf, Map.append, vmMapInit]
    fresh := by simp [shareMapOf, Map.append, vmMapInit, Map.linked]
    nentries := by simp [shareMapOf, Map.append, vmMapInit, Map.linked]
    hint := by simp [shareMapOf, Map.append, vmMapInit, Map.linked, Live]
    firstFree := by simp [shareMapOf, Map.append, vmMapInit, Map.linked, Live]
    bound := hb }
  covers a hlo hhi := ⟨{ old with id := 0, wiredCount := 0 }, by simp [shareMapOf, Map.append, vmMapInit], hlo, hhi⟩
  plain e he := by
    simp only [shareMapOf, Map.append, vmMapInit, List.nil_append, List.mem_singleton] at he
    simp [he, Entry.mapRef, ho]

theorem windows_cons (e : Entry) (es : List Entry) : windows (e :: es) = e.window.toList ++ windows es := by
  cases hv : e.window <;> simp [windows, hv]

theorem Forked.cons {old' : Entry} {m m' : Map} {es' : List Entry} {sh' : Shares} {T' : Int}
    (h : Forked max T' (old'.window.toList ++ others) m rest es' m' sh') (hp : old.SamePlace old')
    (hsub : old'.isSubMap = false) (hT : T' + total (inherited rest) = T + total (inherited (old :: rest)))
    (hf : SameFrame new m) : Forked max T others new (old :: rest) (old' :: es') m' sh' := by
  refine ⟨.cons hp h.places, fun e he => ?_, hT ▸ h.child, hf.trans h.frame, ?_⟩
  · rcases List.mem_cons.1 he with rfl | he
    · exact hsub
    · exact h.noSub e he
  · rw [windows_cons, List.append_assoc]
    refine h.shares.perm ?_
    exact ((List.perm_append_comm_assoc ..).append_left _).trans (List.perm_append_comm_assoc ..)

/-- What the loop has in hand before it goes on to `rest`: the new map and the sharing
maps are in order for it, with the windows `others` elsewhere. -/
structure Ready (max lo : Nat) (T : Int) (others : List Window) (rest : List Entry) (m : Map) (sh : Shares) : Prop where
  ordered : Ordered max lo rest
  noSub : ∀ e ∈ rest, e.isSubMap = false
  child : Child lo T (windows m.entries) m
  max : m.maxOffset = max
  min : m.minOffset ≤ lo
  shares : SharesOk (windows rest ++ (windows m.entries ++ others)) sh

theorem Child.mono {m : Map} (h : Child lo T W m) {lo' : Nat} (hle : lo ≤ lo') : Child lo' T W m :=
  { h with ends := fun e he => Nat.le_trans (h.ends e he) hle }

theorem Ready.append (h : Ready max lo T others (old :: rest) new sh) {e : Entry} (hid : e.id = new.nextId)
    (hs : e.start = old.start) (he : e.end_ = old.end_) (hsub : e.isSubMap = false) :
    Child old.end_ (T + (old.end_ - old.start)) (windows (new.append e).entries) (new.append e) ∧
      windows (new.append e).entries = windows new.entries ++ e.window.toList := by
  obtain ⟨h1, h2, h3, h4⟩ := h.ordered
  have hmin := h.min
  have hmax := h.max
  have hc := h.child.append (e := e) hid (by omega) (by omega) (by omega) (by omega) hsub
  rw [hs, he] at hc
  exact ⟨hc.views.symm ▸ hc, hc.views⟩

theorem total_inherited (hi : old.inheritance ≠ .none) (T : Int) :
    T + (old.end_ - old.start) + total (inherited rest) = T + total (inherited (old :: rest)) := by
  rw [inherited_cons, if_neg hi, total_cons]
  omega

theorem perm_twice (v : Window) (a b c : List Window) : (v :: v :: (a ++ (b ++ c))).Perm
    (a ++ ((b ++ [v]) ++ ([v] ++ c))) := by
  have h : a ++ ((b ++ [v]) ++ ([v] ++ c)) = (a ++ b) ++ v :: v :: c := by simp
  rw [h, ← List.append_assoc]
  exact (List.perm_middle.trans (List.perm_middle.cons v)).symm

section Step
variable (env : Env) (ih : ∀ (lo : Nat) (T : Int) (others : List Window) (m : Map) (sh : Shares),
  Ready max lo T others rest m sh →
    ∃ es' m' sh', forkLoop env rest m sh = some (es', m', sh') ∧ Forked max T others m rest es' m' sh')
include ih

theorem fork_next {old' : Entry} {m : Map} {sh' : Shares} {T' : Int} (h : Ready max lo T others (old :: rest) new sh)
    (hp : old.SamePlace old') (hsub : old'.isSubMap = false)
    (hchild : Child old.end_ T' (windows m.entries) m) (hf : SameFrame new m)
    (hT : T' + total (inherited rest) = T + total (inherited (old :: rest)))
    (hsh : SharesOk (windows rest ++ (windows m.entries ++ (old'.window.toList ++ others))) sh') :
    ∃ es' m' sh'', (forkLoop env rest m sh').map (fun r => (old' :: r.1, r.2)) = some (es', m', sh'') ∧
      Forked max T others new (old :: rest) es' m' sh'' := by
  obtain ⟨h1, h2, h3, h4⟩ := h.ordered
  have hmin := h.min
  have hready : Ready max old.end_ T' (old'.window.toList ++ others) rest m sh' :=
    ⟨h4, fun e he => h.noSub e (by simp [he]), hchild, hf.maxOffset.trans h.max, by rw [hf.minOffset]; omega, hsh⟩
  obtain ⟨es', m', sh'', hrun, hfork⟩ := ih _ _ _ _ _ hready
  exact ⟨old' :: es', m', sh'', by rw [hrun]; rfl, hfork.cons hp hsub hT hf⟩

theorem fork_none (h : Ready max lo T others (old :: rest) new sh) (hi : old.inheritance = .none) :
    ∃ es' m' sh'', (forkLoop env rest new sh).map (fun r => (old :: r.1, r.2)) = some (es', m', sh'') ∧
      Forked max T others new (old :: rest) es' m' sh'' := by
  obtain ⟨h1, h2, h3, h4⟩ := h.ordered
  refine fork_next env ih h ⟨rfl, rfl, rfl⟩ (h.noSub old (by simp)) (h.child.mono (by omega)) ⟨rfl, rfl, rfl⟩ ?_ ?_
  · rw [inherited_cons, if_pos hi]
  · refine h.shares.perm ?_
    rw [windows_cons, List.append_assoc]
    exact (List.perm_append_comm_assoc ..).trans ((List.perm_append_comm_assoc ..).append_left _)

theorem fork_shareAgain (h : Ready max lo T others (old :: rest) new sh) (hi : old.inheritance = .share) {s : Nat}
    (ho : old.object = .shareMap s) :
    ∃ es' m' sh'', (forkLoop env rest (new.append { old with id := new.nextId, wiredCount := 0 })
        (sh.reference s)).map (fun r => (old :: r.1, r.2)) = some (es', m', sh'') ∧
      Forked max T others new (old :: rest) es' m' sh'' := by
  have hsub := h.noSub old (by simp)
  have hv : old.window = some ⟨s, old.offset, old.end_ - old.start⟩ := by simp [Entry.window, ho]
  obtain ⟨hchild, hwin⟩ := h.append (e := { old with id := new.nextId, wiredCount := 0 }) rfl rfl rfl hsub
  refine fork_next env ih h ⟨rfl, rfl, rfl⟩ hsub hchild ⟨rfl, rfl, rfl⟩ (total_inherited (by simp [hi]) T) ?_
  have hsh := h.shares
  rw [windows_cons, hv] at hsh
  rw [hwin, show ({ old with id := new.nextId, wiredCount := 0 } : Entry).window = old.window from rfl, hv]
  exact (hsh.reference (List.mem_cons_self ..)).perm (perm_twice ..)

/-- An entry that refers to an object gets a sharing map. -/
theorem fork_shareFirst (h : Ready max lo T others (old :: rest) new sh) (hi : old.inheritance = .share) {o : Option Nat}
    (ho : old.object = .vmObject o) :
    ∃ es' m' sh'', (forkLoop env rest
        (new.append { old with object := .shareMap sh.next, offset := old.start, id := new.nextId, wiredCount := 0 })
        ((sh.create (shareMapOf old)).reference sh.next)).map
          (fun r => ({ old with object := .shareMap sh.next, offset := old.start } :: r.1, r.2)) = some (es', m', sh'') ∧
      Forked max T others new (old :: rest) es' m' sh'' := by
  obtain ⟨h1, h2, h3, h4⟩ := h.ordered
  have hbound := h.max ▸ h.child.linked.bound
  obtain ⟨hchild, hwin⟩ := h.append
    (e := { old with object := .shareMap sh.next, offset := old.start, id := new.nextId, wiredCount := 0 })
    rfl rfl rfl rfl
  refine fork_next env ih h ⟨rfl, rfl, rfl⟩ rfl hchild ⟨rfl, rfl, rfl⟩ (total_inherited (by simp [hi]) T) ?_
  have hsh := h.shares
  rw [windows_cons, show old.window = none by simp [Entry.window, ho]] at hsh
  have hnew := hsh.create (v := ⟨sh.next, old.start, old.end_ - old.start⟩)
    (shareOk_shareMapOf ho h2 (by omega)) rfl rfl (Nat.le_refl _)
    (show old.start + (old.end_ - old.start) ≤ old.end_ by omega)
  rw [hwin]
  exact (hnew.reference (List.mem_cons_self ..)).perm (perm_twice ..)

/-- An entry that refers to a sharing map is copied out of it. -/
theorem fork_copyMap (h : Ready max lo T others (old :: rest) new sh) (hi : old.inheritance = .copy) {s : Nat}
    (ho : old.object = .shareMap s) :
    ∃ share src' dst', sh.get s = some share ∧
      vmMapCopy env (new.append { old with id := new.nextId, wiredCount := 0, object := .vmObject none }) share
        old.start (old.end_ - old.start) old.offset = some (src', dst') ∧
      ∃ es' m' sh'', (forkLoop env rest dst' (sh.set s (some src'))).map (fun r => (old :: r.1, r.2)) =
          some (es', m', sh'') ∧ Forked max T others new (old :: rest) es' m' sh'' := by
  have hsub := h.noSub old (by simp)
  have hv : old.window = some ⟨s, old.offset, old.end_ - old.start⟩ := by simp [Entry.window, ho]
  have hsh := h.shares
  rw [windows_cons, hv] at hsh
  obtain ⟨share, hget, hlo, hhi⟩ := hsh.window ⟨s, old.offset, old.end_ - old.start⟩ (by simp)
  have hok := (hsh.share s share hget).2.1
  obtain ⟨hchild, hwin⟩ := h.append
    (e := { old with id := new.nextId, wiredCount := 0, object := .vmObject none }) rfl rfl rfl rfl
  obtain ⟨src', dst', hrun, hsrc, hf, hdst, hfd⟩ := vmMapCopy_spec env hok hchild
    (b := new.entries) (d := { old with id := new.nextId, wiredCount := 0, object := .vmObject none }) rfl rfl hlo hhi
  refine ⟨share, src', dst', hget, hrun, ?_⟩
  refine fork_next env ih h ⟨rfl, rfl, rfl⟩ hsub (hdst.views.symm ▸ hdst)
    ⟨hfd.minOffset, hfd.maxOffset, hfd.refCount⟩ (total_inherited (by simp [hi]) T) ?_
  rw [hdst.views, hwin, hv]
  refine (hsh.update hget hsrc hf.minOffset hf.maxOffset hf.refCount).perm ?_
  simp only [List.append_assoc]
  exact (List.perm_append_comm_assoc ..).trans ((List.perm_append_comm_assoc ..).append_left _)

/-- An entry that refers to an object is copied. -/
theorem fork_copyObject (h : Ready max lo T others (old :: rest) new sh) (hi : old.inheritance = .copy) {o : Option Nat}
    (ho : old.object = .vmObject o) :
    ∃ es' m' sh'', (forkLoop env rest (new.append (vmMapCopyEntry env old
        { old with id := new.nextId, wiredCount := 0, object := .vmObject none }).2) sh).map
          (fun r => ((vmMapCopyEntry env old
            { old with id := new.nextId, wiredCount := 0, object := .vmObject none }).1 :: r.1, r.2)) =
        some (es', m', sh'') ∧
      Forked max T others new (old :: rest) es' m' sh'' := by
  have hsub := h.noSub old (by simp)
  obtain ⟨hsame, hdsame, -⟩ := same_copyEntry env (s := old)
    (d := { old with id := new.nextId, wiredCount := 0, object := .vmObject none }) (by simp [Entry.mapRef, ho])
  obtain ⟨hchild, hwin⟩ := h.append hdsame.id hdsame.start hdsame.end_ (hdsame.isSubMap.trans rfl)
  refine fork_next env ih h hsame.toSamePlace (hsame.isSubMap.trans hsub) hchild ⟨rfl, rfl, rfl⟩
    (total_inherited (by simp [hi]) T) ?_
  have hv : old.window = none := by simp [Entry.window, ho]
  have hsh := h.shares
  rw [windows_cons, hv] at hsh
  rw [hwin, hdsame.window, hsame.window, hv]
  simpa [Entry.window] using hsh

end Step

theorem forkLoop_spec (env : Env) (rest : List Entry) : ∀ (lo : Nat) (T : Int) (others : List Window) (m : Map)
    (sh : Shares), Ready max lo T others rest m sh →
      ∃ es' m' sh', forkLoop env rest m sh = some (es', m', sh') ∧ Forked max T others m rest es' m' sh' := by
  induction rest with
  | nil =>
    intro lo T others m sh h
    refine ⟨[], m, sh, rfl, .nil, by simp, ?_, ⟨rfl, rfl, rfl⟩, h.shares⟩
    have hc := h.child
    refine { hc with ends := fun e he => ?_, mapped := by simpa [inherited] using hc.mapped }
    exact h.max ▸ (hc.linked.ordered.mem he).2.2
  | cons old rest ih =>
    intro lo T others m sh h
    unfold forkLoop
    split
    · rename_i s hs
      have := h.noSub old (by simp)
      simp [Entry.isSubMap, hs] at this
    · rename_i hi _
      exact fork_none env ih h hi
    · rename_i s hi hs
      exact fork_shareAgain env ih h hi hs
    · rename_i o hi ho
      exact fork_shareFirst env ih h hi ho
    · rename_i s hi hs
      obtain ⟨share, src', dst', hget, hrun, hrest⟩ := fork_copyMap env ih h hi hs
      simp only [hget, hrun, Option.bind_eq_bind, Option.bind_some]
      exact hrest
    · rename_i o hi ho
      exact fork_copyObject env ih h hi ho

/-- `vmspace_fork` returns; the new map is linked, maps what is inherited of the old one,
and says that it maps what the old one does. -/
theorem vmspaceFork_spec (env : Env) {w : Space} (h : Good others w) :
    ∃ w' m, vmspaceFork env w = some (w', m) ∧ Good (windows m.entries ++ others) w' ∧ Linked m ∧
      (∀ e ∈ m.entries, e.isSubMap = false) ∧ m.size = w.map.size ∧
      total m.entries = total (inherited w.map.entries) := by
  have hready : Ready w.map.maxOffset w.map.minOffset 0 others w.map.entries
      (vmMapInit w.map.minOffset w.map.maxOffset) w.shares :=
    ⟨h.linked.ordered, h.noSub, ⟨linked_init h.linked.bound, by simp [vmMapInit], rfl, rfl, by simp [vmMapInit]⟩, rfl,
      Nat.le_refl _, h.shares⟩
  obtain ⟨es', m', sh', hrun, hf⟩ := forkLoop_spec env _ _ _ _ _ _ hready
  refine ⟨⟨{ w.map with entries := es' }, sh'⟩, { m' with size := w.map.size }, ?_, ?_, { hf.child.linked with },
    hf.child.noSub, rfl, ?_⟩
  · simp only [vmspaceFork, hrun, Option.bind_eq_bind, Option.bind_some]
  · exact ⟨linked_touch h.linked hf.places, h.size.trans (total_touch hf.places).symm, hf.noSub, hf.shares⟩
  · exact hf.child.mapped.trans (by omega)

end Fork

end BsdKernel.VmMap
