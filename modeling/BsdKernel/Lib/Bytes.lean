import Mathlib.Data.List.Basic
/-!
# Byte memories

A memory is a function from addresses to bytes, and words are in network order.
`bytesAt` reads a range as a list. `AgreeOff E` says that two memories are equal
on a range but for the fields `E`; storing the other memory's value in a field
takes it off the list (`AgreeOff.settle`).
-/

namespace BsdKernel.Lib

abbrev Byte := BitVec 8

/-- Memory by address. -/
abbrev Mem := Int → Byte

def get16 (m : Mem) (a : Int) : BitVec 16 := m a ++ m (a + 1)

def get32 (m : Mem) (a : Int) : BitVec 32 := get16 m a ++ get16 m (a + 2)

def set8 (m : Mem) (a : Int) (v : Byte) : Mem := fun i => if i = a then v else m i

def set16 (m : Mem) (a : Int) (v : BitVec 16) : Mem := set8 (set8 m a (v.extractLsb' 8 8)) (a + 1) (v.extractLsb' 0 8)

def set32 (m : Mem) (a : Int) (v : BitVec 32) : Mem :=
  set16 (set16 m a (v.extractLsb' 16 16)) (a + 2) (v.extractLsb' 0 16)

/-- `bcopy` of `n` bytes from `b` to `a`. -/
def copy (dst : Mem) (a : Int) (src : Mem) (b : Int) (n : Nat) : Mem :=
  fun i => if a ≤ i ∧ i < a + n then src (b + (i - a)) else dst i

/-- The bytes of a list, from `a` on. -/
def putBytes (mem : Mem) (a : Int) (l : List Byte) : Mem :=
  fun i => if a ≤ i ∧ i < a + l.length then l.getD (i - a).toNat 0 else mem i

/-- The `n` bytes from `a` on. -/
def bytesAt (m : Mem) (a : Int) : Nat → List Byte
  | 0 => []
  | n + 1 => m a :: bytesAt m (a + 1) n

/-! ## Reading back -/

section Frame
variable {m : Mem} {a b : Int}

@[simp] theorem set8_same (v : Byte) : set8 m a v a = v := by simp [set8]

theorem set8_ne {v : Byte} (h : b ≠ a) : set8 m a v b = m b := by simp [set8, h]

theorem set16_ne {v : BitVec 16} (h : b < a ∨ a + 2 ≤ b) : set16 m a v b = m b := by
  rw [set16, set8_ne (by omega), set8_ne (by omega)]

theorem set32_ne {v : BitVec 32} (h : b < a ∨ a + 4 ≤ b) : set32 m a v b = m b := by
  rw [set32, set16_ne (by omega), set16_ne (by omega)]

theorem get16_bytes {d : Mem} (h : get16 m a = get16 d a) : ∀ j, a ≤ j → j < a + 2 → m j = d j := by
  have hhi := congrArg (BitVec.extractLsb' 8 8) h
  have hlo := congrArg (BitVec.extractLsb' 0 8) h
  rw [get16, get16] at hhi hlo
  intro j h0 h2
  obtain rfl | rfl : j = a ∨ j = a + 1 := by omega
  · exact BitVec.extractLsb'_append_eq_left.symm.trans (hhi.trans BitVec.extractLsb'_append_eq_left)
  · exact BitVec.extractLsb'_append_eq_right.symm.trans (hlo.trans BitVec.extractLsb'_append_eq_right)

theorem get32_bytes {d : Mem} (h : get32 m a = get32 d a) : ∀ j, a ≤ j → j < a + 4 → m j = d j := by
  have hhi := congrArg (BitVec.extractLsb' 16 16) h
  have hlo := congrArg (BitVec.extractLsb' 0 16) h
  rw [get32, get32] at hhi hlo
  have h2 : get16 m a = get16 d a :=
    BitVec.extractLsb'_append_eq_left.symm.trans (hhi.trans BitVec.extractLsb'_append_eq_left)
  have h4 : get16 m (a + 2) = get16 d (a + 2) :=
    BitVec.extractLsb'_append_eq_right.symm.trans (hlo.trans BitVec.extractLsb'_append_eq_right)
  intro j h0 hj
  by_cases hj2 : j < a + 2
  · exact get16_bytes h2 j h0 hj2
  · exact get16_bytes h4 j (by omega) (by omega)

theorem get16_congr {m' : Mem} (h : ∀ j, a ≤ j → j < a + 2 → m j = m' j) : get16 m a = get16 m' a := by
  rw [get16, get16, h _ (by omega) (by omega), h _ (by omega) (by omega)]

theorem get32_congr {m' : Mem} (h : ∀ j, a ≤ j → j < a + 4 → m j = m' j) : get32 m a = get32 m' a := by
  rw [get32, get32, get16_congr fun j _ _ => h j (by omega) (by omega),
    get16_congr fun j _ _ => h j (by omega) (by omega)]

theorem set16_get16 (d : Mem) : ∀ j, a ≤ j → j < a + 2 → set16 m a (get16 d a) j = d j := by
  intro j h0 h2
  obtain rfl | rfl : j = a ∨ j = a + 1 := by omega
  · rw [set16, set8_ne (by omega), set8_same]
    exact BitVec.extractLsb'_append_eq_left
  · rw [set16, set8_same]
    exact BitVec.extractLsb'_append_eq_right

theorem set32_get32 (d : Mem) : ∀ j, a ≤ j → j < a + 4 → set32 m a (get32 d a) j = d j := by
  intro j h0 h4
  have hhi : (get32 d a).extractLsb' 16 16 = get16 d a := BitVec.extractLsb'_append_eq_left
  have hlo : (get32 d a).extractLsb' 0 16 = get16 d (a + 2) := BitVec.extractLsb'_append_eq_right
  rw [set32, hhi, hlo]
  by_cases h2 : j < a + 2
  · rw [set16_ne (by omega), set16_get16 d j h0 h2]
  · exact set16_get16 d j (by omega) (by omega)

end Frame

theorem copy_in {dst src : Mem} {a b j : Int} {n : Nat} (h0 : 0 ≤ j) (hn : j < n) :
    copy dst a src b n (a + j) = src (b + j) := by
  rw [copy, if_pos (by omega)]
  congr 1
  omega

theorem copy_out {dst src : Mem} {a b i : Int} {n : Nat} (h : i < a ∨ a + n ≤ i) : copy dst a src b n i = dst i := by
  rw [copy, if_neg (by omega)]

theorem putBytes_out {mem : Mem} {a i : Int} {l : List Byte} (h : i < a ∨ a + l.length ≤ i) : putBytes mem a l i = mem i := by
  rw [putBytes, if_neg (by omega)]

/-! ## Ranges -/

section Ranges
variable {m m' : Mem} {a b : Int} {n k : Nat}

@[simp] theorem bytesAt_length : (bytesAt m a n).length = n := by
  induction n generalizing a with
  | zero => rfl
  | succ n ih => simp [bytesAt, ih]

theorem bytesAt_get {i : Nat} (h : i < n) : (bytesAt m a n)[i]? = some (m (a + i)) := by
  induction n generalizing a i with
  | zero => omega
  | succ n ih =>
    cases i with
    | zero => simp [bytesAt]
    | succ i =>
      rw [bytesAt, List.getElem?_cons_succ, ih (by omega)]
      congr 2
      omega

theorem bytesAt_add : bytesAt m a (n + k) = bytesAt m a n ++ bytesAt m (a + n) k := by
  induction n generalizing a with
  | zero => simp [bytesAt]
  | succ n ih =>
    rw [show n + 1 + k = n + k + 1 by omega, bytesAt, bytesAt, ih, List.cons_append]
    congr 3
    omega

theorem bytesAt_inj (h : bytesAt m a n = bytesAt m' b n) : ∀ i : Nat, i < n → m (a + i) = m' (b + i) := by
  intro i hi
  have := congrArg (·[i]?) h
  simpa [bytesAt_get hi] using this

theorem bytesAt_congr (h : ∀ i : Nat, i < n → m (a + i) = m' (b + i)) : bytesAt m a n = bytesAt m' b n := by
  refine List.ext_getElem? fun i => ?_
  by_cases hi : i < n
  · rw [bytesAt_get hi, bytesAt_get hi, h i hi]
  · rw [List.getElem?_eq_none (by simpa using hi), List.getElem?_eq_none (by simpa using hi)]

theorem bytesAt_append {l l' : List Byte} (h : bytesAt m a (l ++ l').length = l ++ l') :
    bytesAt m a l.length = l ∧ bytesAt m (a + l.length) l'.length = l' := by
  rw [List.length_append, bytesAt_add] at h
  exact List.append_inj h (by simp)

end Ranges

/-! ## Agreement -/

/-- `m` and `d` are equal on `[0, n)` outside the fields `E`, pairs of an address
and a length. -/
def AgreeOff (E : List (Int × Int)) (n : Int) (m d : Mem) : Prop :=
  ∀ j, 0 ≤ j → j < n → (∀ e ∈ E, j < e.1 ∨ e.1 + e.2 ≤ j) → m j = d j

section Agree
variable {E : List (Int × Int)} {n a k : Int} {m m' m'' d : Mem}

theorem AgreeOff.settle (h : AgreeOff ((a, k) :: E) n m d) (hin : ∀ j, a ≤ j → j < a + k → m' j = d j)
    (hout : ∀ j, j < a ∨ a + k ≤ j → m' j = m j) : AgreeOff E n m' d := by
  intro j h0 hn hE
  by_cases hj : a ≤ j ∧ j < a + k
  · exact hin j hj.1 hj.2
  · have hoff : j < a ∨ a + k ≤ j := by omega
    rw [hout j hoff]
    exact h j h0 hn (List.forall_mem_cons.2 ⟨hoff, hE⟩)

theorem AgreeOff.touch (h : AgreeOff E n m d) (hout : ∀ j, j < a ∨ a + k ≤ j → m' j = m j) :
    AgreeOff ((a, k) :: E) n m' d := by
  intro j h0 hn hE
  obtain ⟨hoff, hE⟩ := List.forall_mem_cons.1 hE
  rw [hout j hoff]
  exact h j h0 hn hE

theorem AgreeOff.mono {E' : List (Int × Int)} (h : AgreeOff E n m d) (hE : ∀ e ∈ E, e ∈ E') : AgreeOff E' n m d :=
  fun j h0 hn h' => h j h0 hn fun e he => h' e (hE e he)

theorem AgreeOff.trans (h : AgreeOff E n m m') (h' : AgreeOff E n m' m'') : AgreeOff E n m m'' :=
  fun j h0 hn hE => (h j h0 hn hE).trans (h' j h0 hn hE)

theorem AgreeOff.get16 (h : AgreeOff E n m d) (h0 : 0 ≤ a) (hn : a + 2 ≤ n)
    (hE : ∀ e ∈ E, a + 2 ≤ e.1 ∨ e.1 + e.2 ≤ a) : get16 m a = get16 d a :=
  get16_congr fun j hj hj' => h j (by omega) (by omega) fun e he => by have := hE e he; omega

theorem AgreeOff.get32 (h : AgreeOff E n m d) (h0 : 0 ≤ a) (hn : a + 4 ≤ n)
    (hE : ∀ e ∈ E, a + 4 ≤ e.1 ∨ e.1 + e.2 ≤ a) : get32 m a = get32 d a :=
  get32_congr fun j hj hj' => h j (by omega) (by omega) fun e he => by have := hE e he; omega

end Agree

end BsdKernel.Lib
