import BsdKernel.Ufs.DirSearch
/-!
# A new directory entry

The loop of `direnter` slides the entries of a range together, each over the space that
the ones before it do not need. `enter_range`: the range then has its live entries, cut
to what they need, and behind them the new one with all of the space that is left.
-/

namespace BsdKernel.UfsDir

/-- The entry without space behind it. -/
def Entry.trim (e : Entry) : Entry := { e with reclen := e.dsize }

/-- The entries of a range as they are slid together. -/
def packed (r : List Entry) : List Entry := (r.filter Entry.live).map Entry.trim

section Packed
variable {fs : Fs} {d : Bytes} {a b : Nat}

@[simp] theorem packed_nil : packed [] = [] := rfl

theorem packed_append (r₁ r₂ : List Entry) : packed (r₁ ++ r₂) = packed r₁ ++ packed r₂ := by simp [packed]

theorem packed_live {e : Entry} (h : e.live = true) : packed [e] = [e.trim] := by simp [packed, h]

theorem packed_dead {e : Entry} (h : e.live = false) : packed [e] = [] := by simp [packed, h]

theorem packed_cons (e : Entry) (r : List Entry) : packed (e :: r) = packed [e] ++ packed r := packed_append [e] r

theorem freeOf_eq (r : List Entry) : freeOf r = len r - len (packed r) := by
  induction r with
  | nil => rfl
  | cons e r ih =>
    rw [freeOf_cons, ih, packed_cons, len_append, len_cons, Entry.free]
    cases hl : e.live with
    | true =>
      rw [packed_live hl]
      simp [Entry.trim]
      omega
    | false =>
      rw [packed_dead hl]
      simp
      omega

theorem Laid.packed_le {r : List Entry} (h : Laid fs d a r b) : len (packed r) ≤ len r := by
  induction r generalizing a with
  | nil => exact Nat.le_refl _
  | cons e r ih =>
    have := ih h.2.2
    have hroom := h.2.1.room
    rw [packed_cons, len_append, len_cons]
    cases hl : e.live with
    | true =>
      rw [packed_live hl]
      simp [Entry.trim]
      omega
    | false =>
      rw [packed_dead hl]
      simp
      omega

theorem dsize_mod (e : Entry) : e.dsize % 4 = 0 := by
  unfold Entry.dsize DIRSIZ
  omega

theorem Entry.Good.trim {e : Entry} (h : e.Good fs a) {off : Nat} (hfits : off % DIRBLKSIZ + e.dsize ≤ DIRBLKSIZ) :
    e.trim.Good fs off where
  aligned := dsize_mod e
  fits := by show e.dsize ≤ _; omega
  room := Nat.le_refl _
  short := h.short
  named := h.named
  clean := h.clean

end Packed

/-! ## The loop -/

section Loop
variable {fs : Fs} {d₀ : Bytes} {base : Nat}

/-- The entries `P ++ [l]` have been slid together, with `l` still at the end. -/
structure Slid (fs : Fs) (d₀ : Bytes) (base : Nat) (P : List Entry) (l : Entry) (d : Bytes) (ep dsize : Nat) (free : Int) :
    Prop where
  ep_eq : ep = base + len (packed P)
  laid : Laid fs d base (packed P) ep
  last : entryAt d ep = l
  dsize_eq : dsize = l.dsize
  free_eq : free = len (P ++ [l]) - len (packed P) - l.dsize
  below : ∀ c ≤ base, Agree d₀ d c base
  above : ∀ c, Agree d₀ d (base + len (P ++ [l])) c

/-- The entry that was last is cut, or its space taken. -/
theorem Slid.next {P : List Entry} {l n : Entry} {d : Bytes} {ep dsize : Nat} {free : Int}
    (h : Slid fs d₀ base P l d ep dsize free) (hpacked : len (packed P) ≤ len P) (hl : l.Good fs (base + len P))
    (hn : n.Good fs (base + len (P ++ [l]))) (hn₀ : entryAt d₀ (base + len (P ++ [l])) = n)
    (hblock : base % DIRBLKSIZ + len (P ++ [l, n]) ≤ DIRBLKSIZ) :
    let live := dIno d ep ≠ 0
    let d' := if live then setReclen d ep dsize else d
    let ep' := if live then ep + dsize else ep
    let nep := base + len (P ++ [l])
    dReclen d' nep = n.reclen ∧ Slid fs d₀ base (P ++ [l]) n (memcpy d' ep' nep (DIRSIZ (dNamlen d' nep))) ep'
      (DIRSIZ (dNamlen d' nep)) ((if live then free else free + dsize) + (dReclen d' nep - DIRSIZ (dNamlen d' nep))) := by
  have hroom := hl.room
  have hnroom := hn.room
  have hdsize := dsize_pos l
  have hlen : len (P ++ [l]) = len P + l.reclen := by simp
  have hlen₂ : len (P ++ [l, n]) = len P + l.reclen + n.reclen := by simp [Nat.add_assoc]
  have hep : ep + l.dsize ≤ base + len (P ++ [l]) := by rw [h.ep_eq, hlen]; omega
  have hlive : dIno d ep ≠ 0 ↔ l.live = true := by
    rw [← h.last, Entry.live, decide_eq_true_eq]
    rfl
  -- the store and the copy stay below the entries that are still to come
  have hset : ∀ c, Agree d (if dIno d ep ≠ 0 then setReclen d ep dsize else d) (base + len (P ++ [l])) c := by
    intro c
    split
    · exact agree_store _ _ (.inr (by rw [le16_length]; omega))
    · exact fun _ _ _ => rfl
  have hset' : ∀ c, Agree d (if dIno d ep ≠ 0 then setReclen d ep dsize else d) c ep := by
    intro c
    split
    · exact agree_store _ _ (.inl (by omega))
    · exact fun _ _ _ => rfl
  have hcur : entryAt (if dIno d ep ≠ 0 then setReclen d ep dsize else d) (base + len (P ++ [l])) = n := by
    rw [← hn₀]
    exact entryAt_agree ((h.above _).trans (hset _))
  have hlaid : Laid fs (if dIno d ep ≠ 0 then setReclen d ep dsize else d) base (packed (P ++ [l]))
      (if dIno d ep ≠ 0 then ep + dsize else ep) := by
    rw [packed_append, laid_append, ← h.ep_eq]
    refine ⟨h.laid.agree (hset' _), ?_⟩
    by_cases hlv : l.live = true
    · rw [packed_live hlv, if_pos (hlive.2 hlv), if_pos (hlive.2 hlv), h.dsize_eq]
      refine ⟨?_, hl.trim ?_, rfl⟩
      · rw [entryAt_setReclen, h.last]
        · rfl
        · have hfits := hl.fits
          unfold DIRBLKSIZ at hfits
          omega
      · have hmod : ep % DIRBLKSIZ = base % DIRBLKSIZ + len (packed P) := by
          rw [h.ep_eq]
          unfold DIRBLKSIZ at hblock ⊢
          omega
        omega
    · have hdead : l.live = false := by simpa using hlv
      rw [packed_dead hdead, if_neg (fun hc => hlv (hlive.1 hc)), if_neg (fun hc => hlv (hlive.1 hc))]
      rfl
  have hep' : (if dIno d ep ≠ 0 then ep + dsize else ep) = base + len (packed (P ++ [l])) := hlaid.end_eq
  have hle : (if dIno d ep ≠ 0 then ep + dsize else ep) ≤ base + len (P ++ [l]) := by
    have := h.dsize_eq
    split <;> omega
  have hfree : (if dIno d ep ≠ 0 then free else free + dsize) = len (P ++ [l]) - len (packed (P ++ [l])) := by
    rw [h.free_eq, h.dsize_eq, packed_append, len_append]
    by_cases hlv : l.live = true
    · rw [if_pos (hlive.2 hlv), packed_live hlv]
      simp [Entry.trim]
      omega
    · have hdead : l.live = false := by simpa using hlv
      rw [if_neg (fun hc => hlv (hlive.1 hc)), packed_dead hdead]
      simp
  simp only
  generalize (if dIno d ep ≠ 0 then setReclen d ep dsize else d) = d' at hset hset' hcur hlaid
  generalize (if dIno d ep ≠ 0 then ep + dsize else ep) = ep' at hlaid hep' hle
  have hreclen : dReclen d' (base + len (P ++ [l])) = n.reclen := by rw [← hcur]; rfl
  have hnamlen : DIRSIZ (dNamlen d' (base + len (P ++ [l]))) = n.dsize := by rw [Entry.dsize, ← hcur, entryAt_namlen]
  rw [hnamlen, hreclen, hfree]
  refine ⟨rfl, hep', ?_, ?_, rfl, ?_, fun c hc => ?_, fun c => ?_⟩
  · exact hlaid.agree (agree_memcpy _ (.inl (Nat.le_refl _)))
  · rw [entryAt_memcpy (by omega)]
    exact hcur
  · have hlen' : len (P ++ [l] ++ [n]) = len (P ++ [l]) + n.reclen := by rw [len_append, len_cons, len_nil, Nat.add_zero]
    rw [hlen']
    push_cast
    omega
  · have hbase : base ≤ ep' := by omega
    have hagree := hset' c
    have hepb : base ≤ ep := by rw [h.ep_eq]; omega
    exact ((h.below c hc).trans (hagree.mono (Nat.le_refl _) hepb)).trans
      (agree_memcpy _ (.inl hbase))
  · have hlen' : len (P ++ [l] ++ [n]) = len (P ++ [l]) + n.reclen := by rw [len_append, len_cons, len_nil, Nat.add_zero]
    have hold := (h.above c).trans (hset c)
    exact (hold.mono (by omega) (Nat.le_refl _)).trans (agree_memcpy _ (.inr (by omega)))

theorem compact_spec {R P : List Entry} {l : Entry} {d : Bytes} {ep dsize : Nat} {free : Int} {stop fuel : Nat}
    (h : Slid fs d₀ base P l d ep dsize free) (hlaid : Laid fs d₀ base (P ++ l :: R) stop)
    (hblock : base % DIRBLKSIZ + len (P ++ l :: R) ≤ DIRBLKSIZ) (hfuel : R.length ≤ fuel) :
    ∃ P' l' d' ep' dsize' free', compact base (len (P ++ l :: R)) fuel (len (P ++ [l])) d ep dsize free = (d', ep', dsize', free') ∧
      P' ++ [l'] = P ++ l :: R ∧ Slid fs d₀ base P' l' d' ep' dsize' free' := by
  induction R generalizing P l d ep dsize free fuel with
  | nil =>
    refine ⟨P, l, d, ep, dsize, free, ?_, rfl, h⟩
    cases fuel with
    | zero => rfl
    | succ fuel => rw [compact, if_neg (Nat.lt_irrefl _)]
  | cons n R ih =>
    obtain ⟨fuel, rfl⟩ : ∃ k, fuel = k + 1 := ⟨fuel - 1, by rw [List.length_cons] at hfuel; omega⟩
    have hassoc : P ++ l :: n :: R = P ++ [l] ++ n :: R := by simp
    obtain ⟨hl₀, hl, hP, -⟩ := hlaid.mem
    rw [hassoc] at hlaid hblock
    obtain ⟨hn₀, hn, -, -⟩ := hlaid.mem
    have hpos := hn.pos
    have hnext := h.next hP.packed_le hl hn hn₀ (by
      simp only [len_append, len_cons, len_nil] at hblock ⊢
      omega)
    simp only at hnext
    obtain ⟨hreclen, hslid⟩ := hnext
    rw [hassoc, compact, if_pos (by simp only [len_append, len_cons, len_nil]; omega)]
    simp only
    have hloc : len (P ++ [l]) + n.reclen = len (P ++ [l] ++ [n]) := by
      simp only [len_append, len_cons, len_nil, Nat.add_zero]
    rw [hreclen, hloc]
    rw [hreclen] at hslid
    exact ih hslid hlaid hblock (by rw [List.length_cons] at hfuel; omega)

theorem Laid.len_mod {d : Bytes} {es : List Entry} {a b : Nat} (h : Laid fs d a es b) : len es % 4 = 0 := by
  induction es generalizing a with
  | nil => rfl
  | cons e es ih =>
    have halign := h.2.1.aligned
    have := ih h.2.2
    rw [len_cons]
    omega

end Loop

/-! ## `direnter` -/

/-- A name that can be entered, with an inode. -/
structure Nameable (ino : Nat) (name : List UInt8) : Prop where
  ino_pos : 0 < ino
  ino_lt : ino < 4294967296
  ne_nil : name ≠ []
  short : name.length ≤ MAXNAMLEN
  clean : 0 ∉ name

section Enter
variable {fs : Fs} {dir : Dir} {r : List Entry} {ino : Nat} {name : List UInt8} {base : Nat}

theorem Nameable.good (h : Nameable ino name) {off reclen : Nat} (halign : reclen % 4 = 0)
    (hfits : reclen ≤ DIRBLKSIZ - off % DIRBLKSIZ) (hroom : DIRSIZ name.length ≤ reclen) :
    Entry.Good fs off ⟨ino, reclen, name, 0⟩ :=
  ⟨halign, hfits, hroom, h.short, fun _ => h.ne_nil, fun _ => ⟨h.clean, rfl⟩⟩

/-- A new entry in a range with space: the live entries, and the new one behind them. -/
theorem enter_range (endoff : Nat) (pad : Nat → UInt8) (hlaid : Laid fs dir.bytes base r (base + len r)) (hr : r ≠ [])
    (hfree : DIRSIZ name.length ≤ freeOf r) (hblock : base % DIRBLKSIZ + len r ≤ DIRBLKSIZ) (hname : Nameable ino name) :
    ∃ d', direnter fs dir ⟨base, len r, endoff⟩ ino name pad = .ok { dir with
        bytes := d'
        size := if endoff ≠ 0 ∧ endoff < max dir.size (base + len r) then endoff else max dir.size (base + len r) } ∧
      Laid fs d' base (packed r ++ [⟨ino, (freeOf r).toNat, name, 0⟩]) (base + len r) ∧
      (∀ c ≤ base, Agree dir.bytes d' c base) ∧ ∀ c, Agree dir.bytes d' (base + len r) c := by
  obtain ⟨e, R, rfl⟩ : ∃ e R, r = e :: R := by
    cases r with
    | nil => exact absurd rfl hr
    | cons e R => exact ⟨e, R, rfl⟩
  obtain ⟨he, hg, -⟩ := laid_cons.1 hlaid
  have hreclen : dReclen dir.bytes base = e.reclen := by rw [← he]; rfl
  have hdsize : DIRSIZ (dNamlen dir.bytes base) = e.dsize := by rw [Entry.dsize, ← he, entryAt_namlen]
  have hstart : Slid fs dir.bytes base [] e dir.bytes base e.dsize (e.reclen - e.dsize) :=
    ⟨rfl, rfl, he, rfl, by simp, fun _ _ _ _ _ => rfl, fun _ _ _ _ => rfl⟩
  have hcount := hlaid.length_le
  have hfuel : R.length ≤ len (e :: R) := by rw [List.length_cons] at hcount; omega
  obtain ⟨P, l, d, ep, dsize, free, hcompact, hlast, hslid⟩ := compact_spec hstart hlaid hblock hfuel
  simp only [List.nil_append, len_cons, len_nil, Nat.add_zero] at hcompact hlast
  rw [← len_cons] at hcompact
  rw [← hlast] at hlaid hfree hblock hcompact ⊢
  obtain ⟨-, hl, hP, -⟩ := hlaid.mem
  have hroom := hl.room
  have hmod := hlaid.len_mod
  have hpacked := hP.packed_le
  have hlen : len (P ++ [l]) = len P + l.reclen := by simp
  have hfreeOf := freeOf_eq (P ++ [l])
  have hfree_eq := hslid.free_eq
  have hep := hslid.ep_eq
  have hmod' := hslid.laid.len_mod
  have hdsize' := hslid.dsize_eq
  have hlsize := dsize_pos l
  have hnew := lt_dirsiz name.length
  have hlive : dIno d ep = 0 ↔ l.live = false := by
    rw [← hslid.last, Entry.live, decide_eq_false_iff_not, not_not]
    rfl
  unfold direnter
  simp only
  rw [if_neg (by omega), hreclen, hdsize, hcompact]
  simp only
  cases hlv : l.live with
  | false =>
    rw [packed_append, packed_dead hlv, List.append_nil] at hfreeOf
    rw [packed_append, packed_dead hlv, List.append_nil, if_pos (hlive.2 hlv)]
    have hsum : free + dsize = freeOf (P ++ [l]) := by omega
    have hspace : ¬(free + dsize) % 4294967296 < (DIRSIZ name.length : Int) := by
      unfold DIRBLKSIZ at hblock
      omega
    rw [if_neg hspace, hsum]
    refine ⟨_, rfl, ?_, fun c hc => ?_, fun c => ?_⟩
    · rw [laid_append, ← hep]
      refine ⟨hslid.laid.agree (agree_store _ _ (.inl (Nat.le_refl _))), ?_, hname.good ?_ ?_ ?_, ?_⟩
      · apply entryAt_newdir hname.ino_lt
        · unfold DIRBLKSIZ at hblock
          omega
        · have := hname.short
          unfold MAXNAMLEN at this
          omega
      · omega
      · have : ep % DIRBLKSIZ = base % DIRBLKSIZ + len (packed P) := by
          unfold DIRBLKSIZ at hblock ⊢
          omega
        omega
      · omega
      · show ep + (freeOf (P ++ [l])).toNat = base + len (P ++ [l])
        omega
    · exact (hslid.below c hc).trans (agree_store _ _ (.inl (by omega)))
    · exact (hslid.above c).trans (agree_store _ _ (.inr (by rw [newdir_length]; omega)))
  | true =>
    have htrim : len (packed (P ++ [l])) = len (packed P) + l.dsize := by
      rw [packed_append, packed_live hlv, len_append]
      simp [Entry.trim]
    have hne : ¬dIno d ep = 0 := fun h => by rw [hlive.1 h] at hlv; cases hlv
    rw [if_neg hne, if_neg (by omega)]
    have hsum : free = freeOf (P ++ [l]) := by omega
    rw [hsum, hdsize']
    have hmod_ep : ep % DIRBLKSIZ = base % DIRBLKSIZ + len (packed P) := by
      unfold DIRBLKSIZ at hblock ⊢
      omega
    refine ⟨_, rfl, ?_, fun c hc => ?_, fun c => ?_⟩
    · have hplace : base + len (packed (P ++ [l])) = ep + l.dsize := by omega
      rw [laid_append, hplace, packed_append, laid_append, ← hep]
      refine ⟨⟨?_, ?_⟩, ?_, hname.good ?_ ?_ ?_, ?_⟩
      · apply (hslid.laid.agree _).agree (agree_store _ _ (.inl (by omega)))
        exact agree_store _ _ (.inl (by omega))
      · rw [packed_live hlv]
        refine ⟨?_, hl.trim (by omega), rfl⟩
        have hkeep : entryAt (setReclen d ep l.dsize) ep = l.trim := by
          rw [entryAt_setReclen, hslid.last]
          · rfl
          · have hfits := hl.fits
            unfold DIRBLKSIZ at hfits
            omega
        rw [← hkeep]
        apply entryAt_agree
        apply agree_store
        have hn : dNamlen (setReclen d ep l.dsize) ep = l.name.length := by
          rw [← entryAt_namlen, hkeep]
          rfl
        rw [hn]
        exact .inl (Nat.le_refl _)
      · apply entryAt_newdir hname.ino_lt
        · unfold DIRBLKSIZ at hblock
          omega
        · have := hname.short
          unfold MAXNAMLEN at this
          omega
      · have := dsize_mod l
        omega
      · have : (ep + l.dsize) % DIRBLKSIZ = base % DIRBLKSIZ + len (packed P) + l.dsize := by
          unfold DIRBLKSIZ at hblock hmod_ep ⊢
          omega
        omega
      · omega
      · show ep + l.dsize + (freeOf (P ++ [l])).toNat = base + len (P ++ [l])
        omega
    · refine ((hslid.below c hc).trans (agree_store _ _ (.inl (by omega)))).trans (agree_store _ _ (.inl (by omega)))
    · refine ((hslid.above c).trans (agree_store _ _ (.inr ?_))).trans (agree_store _ _ (.inr ?_))
      · rw [le16_length]
        omega
      · rw [newdir_length]
        omega

end Enter

end BsdKernel.UfsDir
