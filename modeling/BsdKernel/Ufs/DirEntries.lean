import BsdKernel.Ufs.Dir
import Mathlib.Data.List.GetD
/-!
# Directory entries

What the bytes of a directory say: `entryAt` reads the entry at an offset, and
`Laid d a es b` says that the entries `es` follow each other from `a` to `b`, none of
them across a block. The stores of the operations are described by the entries they
change.
-/

namespace BsdKernel.UfsDir

variable {b n : Nat}

/-! ## Reading and storing -/

section Bytes
variable (d d' : Bytes) (a : Nat)

/-- The two directories have the same bytes from `a` to `b`. -/
def Agree (d d' : Bytes) (a b : Nat) : Prop := ∀ i, a ≤ i → i < b → d' i = d i

theorem Agree.mono {d d' : Bytes} {a a' b' : Nat} (h : Agree d d' a b) (ha : a ≤ a') (hb : b' ≤ b) :
    Agree d d' a' b' :=
  fun i h₁ h₂ => h i (by omega) (by omega)

theorem Agree.trans {d d' d'' : Bytes} {a : Nat} (h : Agree d d' a b) (h' : Agree d' d'' a b) : Agree d d'' a b :=
  fun i h₁ h₂ => (h' i h₁ h₂).trans (h i h₁ h₂)

theorem agree_store {l : List UInt8} {c : Nat} (h : c ≤ a ∨ a + l.length ≤ b) : Agree d (store d a l) b c := by
  intro i h₁ h₂
  unfold store
  rw [if_neg (by omega)]

theorem agree_memcpy {dst src c : Nat} (h : c ≤ dst ∨ dst + n ≤ b) : Agree d (memcpy d dst src n) b c := by
  intro i h₁ h₂
  unfold memcpy
  rw [if_neg (by omega)]

theorem store_get {l : List UInt8} {i : Nat} (hi : i < l.length) : store d a l (a + i) = l.getD i 0 := by
  unfold store
  rw [if_pos (by omega), Nat.add_sub_cancel_left]

theorem memcpy_get {dst src i : Nat} (hi : i < n) : memcpy d dst src n (dst + i) = d (src + i) := by
  unfold memcpy
  rw [if_pos (by omega), Nat.add_sub_cancel_left]

@[simp] theorem le16_length (n : Nat) : (le16 n).length = 2 := rfl

@[simp] theorem le32_length (n : Nat) : (le32 n).length = 4 := rfl

variable {d d' a}

theorem u16_congr (h₀ : d' b = d a) (h₁ : d' (b + 1) = d (a + 1)) : u16 d' b = u16 d a := by
  rw [u16, u16, h₀, h₁]

theorem u32_congr (h : ∀ i < 4, d' (b + i) = d (a + i)) : u32 d' b = u32 d a := by
  have h₀ : d' b = d a := h 0 (by omega)
  have h₁ := h 1 (by omega)
  have h₂ := h 2 (by omega)
  have h₃ := h 3 (by omega)
  rw [u32, u32, u16_congr h₀ h₁, u16_congr (a := a + 2) (b := b + 2) h₂ h₃]

theorem u16_le16 (hn : n < 65536) (h₀ : d a = (le16 n).getD 0 0) (h₁ : d (a + 1) = (le16 n).getD 1 0) :
    u16 d a = n := by
  have e₀ : d a = UInt8.ofNat n := h₀
  have e₁ : d (a + 1) = UInt8.ofNat (n / 256) := h₁
  rw [u16, e₀, e₁, UInt8.toNat_ofNat', UInt8.toNat_ofNat']
  omega

theorem u32_le32 (hn : n < 4294967296) (h : ∀ i < 4, d (a + i) = (le32 n).getD i 0) : u32 d a = n := by
  have h₀ := h 0 (by omega)
  have h₁ := h 1 (by omega)
  have h₂ := h 2 (by omega)
  have h₃ := h 3 (by omega)
  have e₀ : d a = UInt8.ofNat n := h₀
  have e₁ : d (a + 1) = UInt8.ofNat (n / 256) := h₁
  have hhigh : u16 d (a + 2) = n / 65536 := u16_le16 (by omega) h₂ h₃
  rw [u32, hhigh, u16, e₀, e₁, UInt8.toNat_ofNat', UInt8.toNat_ofNat']
  omega

end Bytes

/-! ## Entries -/

/-- A directory entry, with the byte behind its name. -/
structure Entry where
  ino : Nat
  reclen : Nat
  name : List UInt8
  nul : UInt8
  deriving DecidableEq, Repr

/-- The space that the entry needs. -/
def Entry.dsize (e : Entry) : Nat := DIRSIZ e.name.length

/-- The entry is in use. -/
def Entry.live (e : Entry) : Bool := e.ino ≠ 0

/-- The entry at `ep`. -/
def entryAt (d : Bytes) (ep : Nat) : Entry :=
  ⟨dIno d ep, dReclen d ep, dName d ep (dNamlen d ep), d (ep + 8 + dNamlen d ep)⟩

section Entries
variable {d d' : Bytes} {a b : Nat}

@[simp] theorem dName_length (n : Nat) : (dName d a n).length = n := by simp [dName]

@[simp] theorem entryAt_namlen : (entryAt d a).name.length = dNamlen d a := by simp [entryAt]

theorem lt_dirsiz (n : Nat) : 8 + n < DIRSIZ n := by
  unfold DIRSIZ
  omega

theorem dName_congr (h : ∀ i < n, d' (b + 8 + i) = d (a + 8 + i)) : dName d' b n = dName d a n :=
  List.map_congr_left fun i hi => h i (List.mem_range.1 hi)

theorem entryAt_copy (h : ∀ i < DIRSIZ (dNamlen d a), d' (b + i) = d (a + i)) : entryAt d' b = entryAt d a := by
  have hlt := lt_dirsiz (dNamlen d a)
  have hino : dIno d' b = dIno d a := u32_congr fun i hi => h i (by omega)
  have hreclen : dReclen d' b = dReclen d a := u16_congr (h 4 (by omega)) (h 5 (by omega))
  have hnamlen : dNamlen d' b = dNamlen d a := u16_congr (h 6 (by omega)) (h 7 (by omega))
  have hname : dName d' b (dNamlen d a) = dName d a (dNamlen d a) := dName_congr fun i hi => by
    rw [Nat.add_assoc, Nat.add_assoc]
    exact h (8 + i) (by omega)
  have hnul : d' (b + 8 + dNamlen d a) = d (a + 8 + dNamlen d a) := by
    rw [Nat.add_assoc, Nat.add_assoc]
    exact h (8 + dNamlen d a) hlt
  rw [entryAt, entryAt, hino, hreclen, hnamlen, hname, hnul]

theorem entryAt_agree (h : Agree d d' a (a + DIRSIZ (dNamlen d a))) : entryAt d' a = entryAt d a :=
  entryAt_copy fun i hi => h (a + i) (by omega) (by omega)

theorem entryAt_memcpy (hn : DIRSIZ (dNamlen d a) ≤ n) : entryAt (memcpy d b a n) b = entryAt d a :=
  entryAt_copy fun i hi => memcpy_get d (by omega)

theorem entryAt_setReclen {r : Nat} (hr : r < 65536) : entryAt (setReclen d a r) a = { entryAt d a with reclen := r } := by
  have hlow : Agree d (setReclen d a r) a (a + 4) := agree_store _ _ (.inl (Nat.le_refl _))
  have hhigh : ∀ c, Agree d (setReclen d a r) (a + 6) c := fun c => agree_store _ _ (.inr (Nat.le_refl _))
  have hino : dIno (setReclen d a r) a = dIno d a := u32_congr fun i hi => hlow (a + i) (by omega) (by omega)
  have hnamlen : dNamlen (setReclen d a r) a = dNamlen d a :=
    u16_congr (hhigh (a + 8) _ (by omega) (by omega)) (hhigh (a + 8) _ (by omega) (by omega))
  have hreclen : dReclen (setReclen d a r) a = r :=
    u16_le16 hr (store_get d (a + 4) (i := 0) (by simp)) (store_get d (a + 4) (i := 1) (by simp))
  have hname : dName (setReclen d a r) a (dNamlen d a) = dName d a (dNamlen d a) :=
    dName_congr fun i hi => hhigh (a + 8 + i + 1) _ (by omega) (by omega)
  have hnul := hhigh (a + 8 + dNamlen d a + 1) (a + 8 + dNamlen d a) (by omega) (by omega)
  rw [entryAt, hino, hreclen, hnamlen, hname, hnul]
  rfl

theorem entryAt_setIno (hn : n < 4294967296) : entryAt (setIno d a n) a = { entryAt d a with ino := n } := by
  have hhigh : ∀ c, Agree d (setIno d a n) (a + 4) c := fun c => agree_store _ _ (.inr (Nat.le_refl _))
  have hino : dIno (setIno d a n) a = n := u32_le32 hn fun i hi => store_get d a (by simpa using hi)
  have hreclen : dReclen (setIno d a n) a = dReclen d a :=
    u16_congr (hhigh (a + 8) _ (by omega) (by omega)) (hhigh (a + 8) _ (by omega) (by omega))
  have hnamlen : dNamlen (setIno d a n) a = dNamlen d a :=
    u16_congr (hhigh (a + 8) _ (by omega) (by omega)) (hhigh (a + 8) _ (by omega) (by omega))
  have hname : dName (setIno d a n) a (dNamlen d a) = dName d a (dNamlen d a) :=
    dName_congr fun i hi => hhigh (a + 8 + i + 1) _ (by omega) (by omega)
  have hnul := hhigh (a + 8 + dNamlen d a + 1) (a + 8 + dNamlen d a) (by omega) (by omega)
  rw [entryAt, hino, hreclen, hnamlen, hname, hnul]
  rfl

theorem newdir_length (ino reclen : Nat) (name : List UInt8) (pad : Nat → UInt8) :
    (newdir ino reclen name pad).length = DIRSIZ name.length := by
  have := lt_dirsiz name.length
  simp only [newdir, List.length_append, le32_length, le16_length, List.length_singleton, List.length_map, List.length_range]
  omega

theorem entryAt_newdir {ino reclen : Nat} {name : List UInt8} {pad : Nat → UInt8} (hino : ino < 4294967296)
    (hreclen : reclen < 65536) (hname : name.length < 65536) :
    entryAt (store d a (newdir ino reclen name pad)) a = ⟨ino, reclen, name, 0⟩ := by
  have hlen := newdir_length ino reclen name pad
  have hlt := lt_dirsiz name.length
  have hget : ∀ i < DIRSIZ name.length,
      store d a (newdir ino reclen name pad) (a + i) = (newdir ino reclen name pad).getD i 0 :=
    fun i hi => store_get d a (by omega)
  have h₁ : dIno (store d a (newdir ino reclen name pad)) a = ino := u32_le32 hino fun i hi => by
    rw [hget i (by omega), newdir]
    simp only [List.append_assoc]
    exact List.getD_append _ _ _ _ (by simpa using hi)
  have h₂ : dReclen (store d a (newdir ino reclen name pad)) a = reclen :=
    u16_le16 hreclen (hget 4 (by omega)) (hget 5 (by omega))
  have h₃ : dNamlen (store d a (newdir ino reclen name pad)) a = name.length :=
    u16_le16 hname (hget 6 (by omega)) (hget 7 (by omega))
  have hbyte : ∀ i, (newdir ino reclen name pad).getD (8 + i) 0 =
      (name ++ ([0] ++ (List.range (DIRSIZ name.length - (8 + name.length + 1))).map pad)).getD i 0 := by
    intro i
    have hsplit : newdir ino reclen name pad = (le32 ino ++ le16 reclen ++ le16 name.length) ++
        (name ++ ([0] ++ (List.range (DIRSIZ name.length - (8 + name.length + 1))).map pad)) := by
      simp only [newdir, List.append_assoc]
    rw [hsplit, List.getD_append_right _ _ _ _ (by simp)]
    congr 1
    simp
  have h₄ : dName (store d a (newdir ino reclen name pad)) a name.length = name := by
    apply List.ext_getElem
    · simp
    · intro i hi hi'
      simp only [dName, List.getElem_map, List.getElem_range]
      rw [Nat.add_assoc, hget (8 + i) (by omega), hbyte, List.getD_append _ _ _ _ hi', List.getD_eq_getElem _ _ hi']
  have h₅ : store d a (newdir ino reclen name pad) (a + 8 + name.length) = 0 := by
    rw [Nat.add_assoc, hget (8 + name.length) hlt, hbyte, List.getD_append_right _ _ _ _ (Nat.le_refl _), Nat.sub_self]
    rfl
  rw [entryAt, h₁, h₂, h₃, h₄, h₅]

end Entries

/-! ## Entries in a row -/

/-- The entry at `off` keeps to the format, as `dirbadentry` has it: what the names consist of matters with
`dirchk` only. -/
structure Entry.Good (fs : Fs) (off : Nat) (e : Entry) : Prop where
  aligned : e.reclen % 4 = 0
  fits : e.reclen ≤ DIRBLKSIZ - off % DIRBLKSIZ
  room : e.dsize ≤ e.reclen
  short : e.name.length ≤ MAXNAMLEN
  named : e.live = true → e.name ≠ []
  clean : fs.dirchk = true → 0 ∉ e.name ∧ e.nul = 0

/-- The entries `es` fill the bytes from `a` to `b`. -/
def Laid (fs : Fs) (d : Bytes) : Nat → List Entry → Nat → Prop
  | a, [], b => a = b
  | a, e :: es, b => entryAt d a = e ∧ e.Good fs a ∧ Laid fs d (a + e.reclen) es b

/-- The bytes of some entries. -/
def len (es : List Entry) : Nat := (es.map Entry.reclen).sum

section Laid
variable {fs : Fs} {d d' : Bytes} {a b : Nat} {e : Entry} {es es₁ es₂ : List Entry}

@[simp] theorem len_nil : len [] = 0 := rfl

@[simp] theorem len_cons : len (e :: es) = e.reclen + len es := by simp [len]

@[simp] theorem len_append : len (es₁ ++ es₂) = len es₁ + len es₂ := by simp [len]

theorem dsize_pos (e : Entry) : 12 ≤ e.dsize := by
  unfold Entry.dsize DIRSIZ
  omega

theorem Entry.Good.pos (h : e.Good fs a) : 12 ≤ e.reclen := by
  have := h.room
  have := dsize_pos e
  omega

theorem Laid.end_eq (h : Laid fs d a es b) : b = a + len es := by
  induction es generalizing a with
  | nil => exact (Nat.add_zero a).symm ▸ Eq.symm h
  | cons e es ih =>
    rw [ih h.2.2, len_cons]
    omega

theorem laid_append : Laid fs d a (es₁ ++ es₂) b ↔ Laid fs d a es₁ (a + len es₁) ∧ Laid fs d (a + len es₁) es₂ b := by
  induction es₁ generalizing a with
  | nil => simp [Laid]
  | cons e es ih =>
    rw [List.cons_append, Laid, ih, Laid, len_cons, Nat.add_assoc]
    constructor
    · rintro ⟨he, hg, h₁, h₂⟩
      exact ⟨⟨he, hg, h₁⟩, h₂⟩
    · rintro ⟨⟨he, hg, h₁⟩, h₂⟩
      exact ⟨he, hg, h₁, h₂⟩

theorem laid_cons : Laid fs d a (e :: es) b ↔ entryAt d a = e ∧ e.Good fs a ∧ Laid fs d (a + e.reclen) es b := Iff.rfl

theorem Laid.le (h : Laid fs d a es b) : a ≤ b := by
  rw [h.end_eq]
  omega

theorem Laid.agree (h : Laid fs d a es b) (hd : Agree d d' a b) : Laid fs d' a es b := by
  induction es generalizing a with
  | nil => exact h
  | cons e es ih =>
    obtain ⟨he, hg, hrest⟩ := h
    have hle := hrest.le
    have hsize : DIRSIZ (dNamlen d a) = e.dsize := by rw [Entry.dsize, ← he, entryAt_namlen]
    have hroom := hg.room
    refine ⟨?_, hg, ih hrest (hd.mono (by omega) (Nat.le_refl _))⟩
    rw [← he]
    apply entryAt_agree
    exact hd.mono (Nat.le_refl _) (by omega)

theorem Laid.split (h : Laid fs d a es b) {m : Nat} (hm : m % DIRBLKSIZ = 0) (ha : a ≤ m) (hb : m ≤ b) :
    ∃ es₁ es₂, es = es₁ ++ es₂ ∧ Laid fs d a es₁ m ∧ Laid fs d m es₂ b := by
  induction es generalizing a with
  | nil =>
    have : a = b := h
    obtain rfl : m = a := by omega
    exact ⟨[], [], rfl, rfl, h⟩
  | cons e es ih =>
    by_cases heq : a = m
    · subst heq
      exact ⟨[], e :: es, rfl, rfl, h⟩
    · obtain ⟨he, hg, hrest⟩ := h
      have hfits := hg.fits
      unfold DIRBLKSIZ at hfits hm
      obtain ⟨es₁, es₂, rfl, h₁, h₂⟩ := ih hrest (by omega)
      exact ⟨e :: es₁, es₂, rfl, ⟨he, hg, h₁⟩, h₂⟩

theorem Laid.mem (h : Laid fs d a (es₁ ++ e :: es₂) b) :
    entryAt d (a + len es₁) = e ∧ e.Good fs (a + len es₁) ∧ Laid fs d a es₁ (a + len es₁) ∧
      Laid fs d (a + len es₁ + e.reclen) es₂ b := by
  obtain ⟨h₁, he, hg, h₂⟩ := laid_append.1 h
  exact ⟨he, hg, h₁, h₂⟩

theorem Laid.length_le (h : Laid fs d a es b) : a + es.length ≤ b := by
  induction es generalizing a with
  | nil => exact Nat.le_of_eq h
  | cons e es ih =>
    have hpos := h.2.1.pos
    have := ih h.2.2
    rw [List.length_cons]
    omega

/-- A good entry is not bad. -/
theorem not_bad (he : entryAt d a = e) (hg : e.Good fs a) : dReclen d a ≠ 0 ∧ ¬(fs.dirchk = true ∧ dirbadentry d a = true) := by
  have hpos := hg.pos
  have hreclen : dReclen d a = e.reclen := by rw [← he]; rfl
  have hnamlen : dNamlen d a = e.name.length := by rw [← he, entryAt_namlen]
  have hname : dName d a (dNamlen d a) = e.name := by rw [← he]; rfl
  have hnul : d (a + 8 + dNamlen d a) = e.nul := by rw [← he]; rfl
  refine ⟨by omega, ?_⟩
  rintro ⟨hchk, hbad⟩
  obtain ⟨hzero, hterm⟩ := hg.clean hchk
  have halign := hg.aligned
  have hfits := hg.fits
  have hroom := hg.room
  have hshort := hg.short
  unfold Entry.dsize at hroom
  unfold dirbadentry at hbad
  rw [hname, hnul, hreclen, hnamlen] at hbad
  simp only [ne_eq, halign, not_true_eq_false, decide_false, Bool.false_or, Bool.or_eq_true, decide_eq_true_eq,
    List.contains_iff_mem, hzero, bne_iff_ne, hterm, or_false] at hbad
  omega

end Laid

end BsdKernel.UfsDir
