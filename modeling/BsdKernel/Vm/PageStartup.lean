import Mathlib.Tactic
/-!
# The physical page table

The sizing done by `vm_page_startup` of `kern/vm/vm_page.c` on 32-bit addresses:
the memory left after bootstrap is split between an array of `struct vm_page` and
the pages it describes. The division rounds up by a structure, so a memory whose
size leaves a page or more over `PAGE_SIZE + sizeof(struct vm_page)` is given one
page too many (`vm_page_startup_iff`).
-/

namespace BsdKernel.PageStartup

/-! ## Machine arithmetic -/

/-- A value stored in a 32-bit `vm_offset_t` or `long`. -/
def word (n : Nat) : Nat := n % 2 ^ 32

theorem word_of_lt {n : Nat} (h : n < 2 ^ 32) : word n = n := Nat.mod_eq_of_lt h

/-- `cnt.v_page_size`, a power of two. -/
def PAGE_SIZE (page_shift : Nat) : Nat := 2 ^ page_shift

theorem PAGE_SIZE_pos (page_shift : Nat) : 0 < PAGE_SIZE page_shift := Nat.two_pow_pos page_shift

/-- Clears the bits of `page_mask`. -/
def trunc_page (page_shift x : Nat) : Nat := x / PAGE_SIZE page_shift * PAGE_SIZE page_shift

def round_page (page_shift x : Nat) : Nat := trunc_page page_shift (word (x + (PAGE_SIZE page_shift - 1)))

def atop (page_shift x : Nat) : Nat := x / PAGE_SIZE page_shift

def ptoa (page_shift x : Nat) : Nat := word (x * PAGE_SIZE page_shift)

theorem trunc_page_of_dvd {page_shift x : Nat} (h : PAGE_SIZE page_shift ∣ x) : trunc_page page_shift x = x :=
  Nat.div_mul_cancel h

/-! ## The sizing -/

/-- What `vm_page_startup` records about the memory it manages. -/
structure Sizes where
  npages : Nat
  first_page : Nat
  last_page : Nat
  first_phys_addr : Nat
  last_phys_addr : Nat
  deriving Repr, DecidableEq

/-- The part of `vm_page_startup` that sizes the page table. `start` and `stop` are `*start` and
`*end` once the hash buckets and kernel map entries are allocated, `size` is `sizeof(struct vm_page)`. -/
def vm_page_startup (page_shift size start stop : Nat) : Sizes :=
  let stop := trunc_page page_shift stop
  let npages := word (word (stop + (2 ^ 32 - start)) + size) / word (PAGE_SIZE page_shift + size)
  let first_page := atop page_shift (round_page page_shift (word (start + word (npages * size))))
  let last_page := word (first_page + npages + (2 ^ 32 - 1))
  { npages, first_page, last_page
    first_phys_addr := ptoa page_shift first_page
    last_phys_addr := word (ptoa page_shift last_page + (PAGE_SIZE page_shift - 1)) }

/-! ## What the sizes are for -/

/-- The managed pages lie above the page array and inside the range. -/
def Inside (size start stop : Nat) (s : Sizes) : Prop :=
  start + s.npages * size ≤ s.first_phys_addr ∧ s.last_phys_addr + 1 ≤ stop

/-- There is room for `n` structures and, from a page boundary behind them, `n` pages. -/
def Possible (page_shift size start stop n : Nat) : Prop :=
  ∃ first, PAGE_SIZE page_shift ∣ first ∧ start + n * size ≤ first ∧ first + n * PAGE_SIZE page_shift ≤ stop

/-- The sizes are right: everything fits, and no more pages would. -/
def Right (page_shift size start stop : Nat) (s : Sizes) : Prop :=
  Inside size start stop s ∧ IsGreatest {n | Possible page_shift size start stop n} s.npages

/-- A page-aligned range of at least two pages. -/
structure Range (page_shift start stop : Nat) : Prop where
  start_aligned : PAGE_SIZE page_shift ∣ start
  stop_aligned : PAGE_SIZE page_shift ∣ stop
  pages : start + 2 * PAGE_SIZE page_shift ≤ stop
  fits : stop < 2 ^ 32

namespace Range

variable {page_shift size start stop : Nat}

/-- The range ends a page or more below the top of the address space. -/
theorem below_top (hr : Range page_shift start stop) : stop + PAGE_SIZE page_shift ≤ 2 ^ 32 := by
  have hlt : PAGE_SIZE page_shift < 2 ^ 32 := by
    have := hr.pages
    have := hr.fits
    omega
  have hshift : page_shift < 32 := (Nat.pow_lt_pow_iff_right (by decide)).1 hlt
  obtain ⟨top, htop⟩ : PAGE_SIZE page_shift ∣ 2 ^ 32 := Nat.pow_dvd_pow 2 hshift.le
  obtain ⟨last, hlast⟩ := hr.stop_aligned
  have hfit := hr.fits
  rw [hlast, htop] at hfit ⊢
  have hle : last + 1 ≤ top := Nat.lt_of_mul_lt_mul_left hfit
  calc PAGE_SIZE page_shift * last + PAGE_SIZE page_shift = PAGE_SIZE page_shift * (last + 1) := by ring
    _ ≤ PAGE_SIZE page_shift * top := Nat.mul_le_mul_left _ hle

/-- Pages laid down from the end of the range leave the room for their structures at its start. -/
theorem possible_iff (hr : Range page_shift start stop) (n : Nat) :
    Possible page_shift size start stop n ↔ n * (PAGE_SIZE page_shift + size) ≤ stop - start := by
  rw [Nat.mul_add]
  constructor
  · rintro ⟨first, -, habove, hbelow⟩
    omega
  · intro h
    have := hr.pages
    refine ⟨stop - n * PAGE_SIZE page_shift, Nat.dvd_sub hr.stop_aligned (Nat.dvd_mul_left _ _), ?_, ?_⟩ <;> omega

end Range

theorem round_page_spec (page_shift x : Nat) (h : x + PAGE_SIZE page_shift ≤ 2 ^ 32) :
    PAGE_SIZE page_shift ∣ round_page page_shift x ∧ x ≤ round_page page_shift x ∧
      ∀ y, PAGE_SIZE page_shift ∣ y → x ≤ y → round_page page_shift x ≤ y := by
  have hpos := PAGE_SIZE_pos page_shift
  have hval : round_page page_shift x =
      (x + (PAGE_SIZE page_shift - 1)) / PAGE_SIZE page_shift * PAGE_SIZE page_shift := by
    rw [round_page, word_of_lt (by omega), trunc_page]
  rw [hval]
  refine ⟨Nat.dvd_mul_left _ _, ?_, ?_⟩
  · have := Nat.div_add_mod' (x + (PAGE_SIZE page_shift - 1)) (PAGE_SIZE page_shift)
    have := Nat.mod_lt (x + (PAGE_SIZE page_shift - 1)) hpos
    omega
  · rintro _ ⟨c, rfl⟩ hxy
    rw [Nat.mul_comm]
    apply Nat.mul_le_mul_left
    rw [← Nat.lt_succ_iff, Nat.div_lt_iff_lt_mul hpos, Nat.succ_mul, Nat.mul_comm c]
    omega

section Values

variable {page_shift size start stop : Nat} (hr : Range page_shift start stop) (hsize : size < PAGE_SIZE page_shift)
include hr hsize

theorem startup_npages :
    (vm_page_startup page_shift size start stop).npages =
      (stop - start + size) / (PAGE_SIZE page_shift + size) := by
  have htop := hr.below_top
  have hpages := hr.pages
  have hdiff : word (stop + (2 ^ 32 - start)) = stop - start := by
    unfold word
    omega
  simp only [vm_page_startup, trunc_page_of_dvd hr.stop_aligned]
  rw [hdiff, word_of_lt (by omega), word_of_lt (by omega)]

theorem startup_npages_bounds :
    1 ≤ (vm_page_startup page_shift size start stop).npages ∧
      (vm_page_startup page_shift size start stop).npages * (PAGE_SIZE page_shift + size) ≤ stop - start + size := by
  rw [startup_npages hr hsize]
  have hpos := PAGE_SIZE_pos page_shift
  have hpages := hr.pages
  refine ⟨?_, Nat.div_mul_le_self _ _⟩
  rw [Nat.one_le_div_iff (by omega)]
  omega

/-- The array ends below the end of the range. -/
theorem startup_array :
    start + (vm_page_startup page_shift size start stop).npages * size + PAGE_SIZE page_shift ≤ stop + size := by
  obtain ⟨hone, hle⟩ := startup_npages_bounds hr hsize
  rw [Nat.mul_add] at hle
  have := Nat.mul_le_mul_right (PAGE_SIZE page_shift) hone
  omega

theorem startup_first_phys_addr :
    (vm_page_startup page_shift size start stop).first_phys_addr =
      round_page page_shift (start + (vm_page_startup page_shift size start stop).npages * size) := by
  have harray := startup_array hr hsize
  have htop := hr.below_top
  obtain ⟨s, hs⟩ : ∃ s, s = vm_page_startup page_shift size start stop := ⟨_, rfl⟩
  rw [← hs] at harray ⊢
  have hfirst : s.first_phys_addr =
      ptoa page_shift (atop page_shift (round_page page_shift (word (start + word (s.npages * size))))) := by
    rw [hs]
    rfl
  have hround := round_page_spec page_shift (start + s.npages * size) (by omega)
  have hbound := hround.2.2 stop hr.stop_aligned (by omega)
  rw [hfirst, word_of_lt (n := s.npages * size) (by omega), word_of_lt (n := start + _) (by omega), ptoa, atop,
    Nat.div_mul_cancel hround.1, word_of_lt (by omega)]

/-- The last managed byte, one page per structure further on. It never wraps, even one page past the range. -/
theorem startup_last_phys_addr :
    (vm_page_startup page_shift size start stop).last_phys_addr + 1 =
      (vm_page_startup page_shift size start stop).first_phys_addr +
        (vm_page_startup page_shift size start stop).npages * PAGE_SIZE page_shift := by
  have harray := startup_array hr hsize
  have htop := hr.below_top
  have hpos := PAGE_SIZE_pos page_shift
  have hfirst := startup_first_phys_addr hr hsize
  obtain ⟨hone, hle⟩ := startup_npages_bounds hr hsize
  obtain ⟨s, hs⟩ : ∃ s, s = vm_page_startup page_shift size start stop := ⟨_, rfl⟩
  rw [← hs] at harray hfirst hone hle ⊢
  have hround := round_page_spec page_shift (start + s.npages * size) (by omega)
  rw [← hfirst] at hround
  obtain ⟨first, hpage⟩ := hround.1
  -- the page after the range bounds the last page, also where the division gave one too many
  have hend : s.first_phys_addr + s.npages * PAGE_SIZE page_shift ≤ stop + PAGE_SIZE page_shift := by
    rw [Nat.mul_add] at hle
    have hover := hround.2.2 (stop + PAGE_SIZE page_shift - s.npages * PAGE_SIZE page_shift)
      (Nat.dvd_sub (Nat.dvd_add hr.stop_aligned dvd_rfl) (Nat.dvd_mul_left _ _)) (by omega)
    omega
  have hfirst_page : s.first_page = first := by
    have hatop : s.first_page = atop page_shift (round_page page_shift (word (start + word (s.npages * size)))) := by
      rw [hs]
      rfl
    rw [hatop, word_of_lt (n := s.npages * size) (by omega), word_of_lt (n := start + _) (by omega), ← hfirst, hpage,
      atop, Nat.mul_div_cancel_left _ hpos]
  have hsum : (first + s.npages) * PAGE_SIZE page_shift ≤ 2 ^ 32 := by
    rw [Nat.add_mul, Nat.mul_comm first]
    omega
  have hpages_le : first + s.npages ≤ 2 ^ 32 := (Nat.le_mul_of_pos_right _ hpos).trans hsum
  have hlast_page : s.last_page = first + s.npages - 1 := by
    have hword : s.last_page = word (s.first_page + s.npages + (2 ^ 32 - 1)) := by
      rw [hs]
      rfl
    rw [hword, hfirst_page]
    unfold word
    omega
  have hlast : s.last_phys_addr = word (ptoa page_shift s.last_page + (PAGE_SIZE page_shift - 1)) := by
    rw [hs]
    rfl
  have hmul : (first + s.npages - 1) * PAGE_SIZE page_shift + PAGE_SIZE page_shift =
      (first + s.npages) * PAGE_SIZE page_shift := by
    rw [← Nat.succ_mul, Nat.succ_eq_add_one, Nat.sub_add_cancel (by omega)]
  rw [hlast, hlast_page, ptoa, word_of_lt (n := (first + s.npages - 1) * _) (by omega), word_of_lt (by omega), hpage,
    Nat.mul_comm _ first, ← Nat.add_mul]
  omega

/-- Everything fits just when the count is possible: the pages start as low as they can. -/
theorem startup_inside_iff :
    Inside size start stop (vm_page_startup page_shift size start stop) ↔
      Possible page_shift size start stop (vm_page_startup page_shift size start stop).npages := by
  have harray := startup_array hr hsize
  have htop := hr.below_top
  have hround := round_page_spec page_shift
    (start + (vm_page_startup page_shift size start stop).npages * size) (by omega)
  rw [← startup_first_phys_addr hr hsize] at hround
  rw [Inside, startup_last_phys_addr hr hsize]
  constructor
  · rintro ⟨habove, hbelow⟩
    exact ⟨_, hround.1, habove, hbelow⟩
  · rintro ⟨first, hdvd, habove, hbelow⟩
    exact ⟨hround.2.1, (Nat.add_le_add_right (hround.2.2 first hdvd habove) _).trans hbelow⟩

theorem startup_bound {n : Nat} (h : Possible page_shift size start stop n) :
    n ≤ (vm_page_startup page_shift size start stop).npages := by
  have hpos := PAGE_SIZE_pos page_shift
  rw [hr.possible_iff] at h
  rw [startup_npages hr hsize, Nat.le_div_iff_mul_le (by omega)]
  omega

end Values

/-- The sizes are right unless the memory, divided into pages with their structures, leaves
room for a whole page but not for its structure. -/
theorem vm_page_startup_iff {page_shift size start stop : Nat} (hr : Range page_shift start stop)
    (hsize : size < PAGE_SIZE page_shift) :
    Right page_shift size start stop (vm_page_startup page_shift size start stop) ↔
      (stop - start) % (PAGE_SIZE page_shift + size) < PAGE_SIZE page_shift := by
  have hpos := PAGE_SIZE_pos page_shift
  have hiff : Right page_shift size start stop (vm_page_startup page_shift size start stop) ↔
      Possible page_shift size start stop (vm_page_startup page_shift size start stop).npages := by
    rw [Right, startup_inside_iff hr hsize]
    exact ⟨And.left, fun h => ⟨h, h, fun n hn => startup_bound hr hsize hn⟩⟩
  have hdiv := Nat.div_add_mod (stop - start) (PAGE_SIZE page_shift + size)
  have hrest := Nat.mod_lt (stop - start) (show 0 < PAGE_SIZE page_shift + size by omega)
  have hover : stop - start + size < (PAGE_SIZE page_shift + size) *
      ((stop - start) / (PAGE_SIZE page_shift + size) + 1) ↔
        (stop - start) % (PAGE_SIZE page_shift + size) < PAGE_SIZE page_shift := by
    rw [Nat.mul_succ]
    omega
  rw [hiff, hr.possible_iff, startup_npages hr hsize, ← Nat.le_div_iff_mul_le (by omega), ← Nat.lt_succ_iff,
    Nat.div_lt_iff_lt_mul (by omega), Nat.mul_comm, ← hover]

/-- Two pages of 4096 bytes with 40-byte structures: one is managed. -/
theorem vm_page_startup_two_pages :
    Right 12 40 0x100000 0x102000 (vm_page_startup 12 40 0x100000 0x102000) :=
  (vm_page_startup_iff ⟨by decide, by decide, by decide, by decide⟩ (by decide)).2 (by decide)

/-- With 104 pages the array takes two of them, and all of 103 pages are handed out behind it: the
last one is beyond the end of memory. -/
theorem vm_page_startup_beyond :
    Range 12 0x100000 0x168000 ∧ (vm_page_startup 12 40 0x100000 0x168000).npages = 103 ∧
      (vm_page_startup 12 40 0x100000 0x168000).last_phys_addr = 0x168fff ∧
      ¬Right 12 40 0x100000 0x168000 (vm_page_startup 12 40 0x100000 0x168000) := by
  refine ⟨⟨by decide, by decide, by decide, by decide⟩, by decide, by decide, fun h => ?_⟩
  exact absurd h.1.2 (by decide)

end BsdKernel.PageStartup
