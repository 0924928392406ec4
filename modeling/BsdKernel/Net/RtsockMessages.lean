import BsdKernel.Net.Rtsock
/-!
# Both messages carry the same addresses

`m_copyback` at the end of a chain appends, so that `rt_msg1` and `rt_msg2` write the same bytes behind
their headers: the images of the addresses, one after the other (`encode`).
-/

namespace BsdKernel.Rtsock

open Lib
open List (replicate)

variable {whole : List UInt8}

/-! ## Bytes and bits -/

theorem roundup_pos (a : Nat) : 0 < ROUNDUP a := by
  unfold ROUNDUP
  split <;> omega

theorem roundup_le (a : Nat) : a ≤ ROUNDUP a := by
  unfold ROUNDUP
  split
  · have hor : a - 1 ≤ (a - 1) ||| 3 := Nat.left_le_or
    omega
  · omega

/-- The images of the addresses. -/
def encode : List (Option Sockaddr) → List UInt8
  | [] => []
  | none :: l => encode l
  | some sa :: l => sa.image ++ encode l

/-- `rti_addrs` with the bits of the slots from `i` on. -/
def marked : Nat → List (Option Sockaddr) → Nat → Nat
  | _, [], addrs => addrs
  | i, none :: l, addrs => marked (i + 1) l addrs
  | i, some _ :: l, addrs => marked (i + 1) l (addrs ||| 1 <<< i)

theorem length_image (sa : Sockaddr) : sa.image.length = ROUNDUP sa.sa_len := by
  rw [Sockaddr.image, List.length_take, Nat.min_eq_left]
  exact sa.readable

theorem image_ne_nil (sa : Sockaddr) : sa.image ≠ [] := by
  apply List.ne_nil_of_length_pos
  rw [length_image]
  exact roundup_pos _

/-! ## `m_copyback` appends -/

section Copyback
variable {mb : Mbufs} {p : Packet} {m0 : List UInt8} {rest : List (List UInt8)} {cp : List UInt8}
variable {s : Copying}

/-- In front of `m` is what the chain `l` has there, and the offset is the end of the chain. -/
structure Seeking (l : List (List UInt8)) (cp : List UInt8) (s : Copying) : Prop where
  chain : s.before ++ s.m :: s.rest = l
  off : s.off = (s.m :: s.rest).flatten.length
  totlen : s.totlen = s.before.flatten.length
  cp : s.cp = cp

theorem seek_end (mb : Mbufs) {l : List (List UInt8)} {n : Nat} (hs : Seeking l cp s) (hn : s.rest.length < n) :
    ∃ r, loop (seekStep mb) n s = some r ∧ r.1 = true ∧ Seeking l cp r.2 ∧ r.2.off ≤ r.2.m.length := by
  refine loop_total (I := Seeking l cp) (μ := fun s => s.rest.length) ?_ hs hn
  intro s hs
  obtain ⟨hchain, hoff, htot, hcp⟩ := hs
  unfold seekStep
  by_cases hgt : s.off > s.m.length
  · rw [if_pos hgt]
    simp only [List.flatten_cons, List.length_append] at hoff
    cases hrest : s.rest with
    | nil =>
      rw [hrest] at hoff
      simp at hoff
      omega
    | cons n rest =>
      rw [hrest] at hoff hchain
      refine ⟨⟨?_, ?_, ?_, hcp⟩, Nat.lt_succ_self _⟩
      · show (s.before ++ [s.m]) ++ n :: rest = l
        rw [List.append_assoc]
        exact hchain
      · show s.off - s.m.length = (n :: rest).flatten.length
        omega
      · show s.totlen + s.m.length = (s.before ++ [s.m]).flatten.length
        rw [htot]
        simp
  · rw [if_neg hgt]
    exact ⟨rfl, ⟨hchain, hoff, htot, hcp⟩, Nat.le_of_not_lt hgt⟩

/-- A round of the copying: `m` is full and so is all behind it, or it is a new mbuf. -/
structure CopyingTo (m0 whole : List UInt8) (s : Copying) : Prop where
  place : (s.off = s.m.length ∧ s.rest.flatten = [] ∧ (s.before ++ [s.m]).head? = some m0) ∨
    (s.off = 0 ∧ s.rest = [] ∧ s.m.length = min MLEN s.cp.length ∧ s.before.head? = some m0)
  bytes : s.before.flatten ++ s.m.take s.off ++ s.cp = whole
  totlen : s.totlen = s.before.flatten.length
  more : s.cp ≠ []

/-- The copying is done. -/
structure Copied (m0 whole : List UInt8) (s : Copying) : Prop where
  bytes : (s.before ++ s.m :: s.rest).flatten = whole
  first : (s.before ++ s.m :: s.rest).head? = some m0
  totlen : s.totlen = whole.length

/-- One round less, after the new mbuf is filled. -/
def Copying.rounds (s : Copying) : Nat := s.cp.length + s.rest.length + if s.off = s.m.length then 1 else 0

theorem copying_fresh (mb : Mbufs) (asked n : Nat) {before : List (List UInt8)} (hfirst : before.head? = some m0)
    (hbytes : before.flatten ++ cp = whole) (hcp : cp ≠ []) (hn : cp.length < n) :
    let s : Copying := ⟨before, (List.range (min MLEN cp.length)).map (mb.old asked), [], 0, before.flatten.length, cp, asked + 1⟩
    CopyingTo m0 whole s ∧ s.rounds < n := by
  have hlen : 0 < cp.length := List.length_pos_iff.2 hcp
  have hmlen : 0 < MLEN := by decide
  refine ⟨⟨.inr ⟨rfl, rfl, by simp, hfirst⟩, by simpa using hbytes, rfl, hcp⟩, ?_⟩
  have hroom : ¬0 = ((List.range (min MLEN cp.length)).map (mb.old asked)).length := by
    rw [List.length_map, List.length_range]
    omega
  rw [Copying.rounds, if_neg hroom]
  simpa using hn

theorem copy_round (hmb : ∀ n, mb.get n = true) (hs : CopyingTo m0 whole s) :
    (copyStep mb s).elim (fun s' => CopyingTo m0 whole s' ∧ s'.rounds < s.rounds) (Copied m0 whole) := by
  obtain ⟨hplace, hbytes, htot, hmore⟩ := hs
  obtain ⟨before, m, rest, off, totlen, cp, asked⟩ := s
  simp only at hplace hbytes htot hmore
  subst htot
  have hcp : 0 < cp.length := List.length_pos_iff.2 hmore
  unfold copyStep
  rw [if_neg hmore]
  rcases hplace with ⟨hoff, hrest, hfirst⟩ | ⟨hoff, hrest, hlen, hfirst⟩
  · -- Nothing fits in `m`.
    subst hoff
    have hm : m.take m.length ++ cp.take 0 ++ m.drop (m.length + 0) = m := by simp
    have hbefore : before.flatten.length + (0 + m.length) = (before ++ [m]).flatten.length := by simp
    have hwhole : (before ++ [m]).flatten ++ cp = whole := by simpa using hbytes
    simp only [Nat.sub_self, Nat.zero_min, hm, List.drop_zero, if_neg hmore, hbefore, hmb, if_true]
    cases rest with
    | nil => exact copying_fresh mb asked _ hfirst hwhole hmore (by simp [Copying.rounds])
    | cons n rest =>
      obtain ⟨rfl, hrest'⟩ : n = [] ∧ rest.flatten = [] := by simpa using hrest
      refine ⟨⟨.inl ⟨rfl, hrest', ?_⟩, ?_, rfl, hmore⟩, ?_⟩
      · rw [List.head?_append, hfirst]
        rfl
      · simpa using hwhole
      · simp [Copying.rounds]
  · -- `m` is filled.
    subst hoff hrest
    have hmlen : 0 < MLEN := by decide
    have hmin : min (m.length - 0) cp.length = m.length := by omega
    have hm : m.take 0 ++ cp.take m.length ++ m.drop (0 + m.length) = cp.take m.length := by simp
    have htake : (cp.take m.length).length = m.length := by
      rw [List.length_take]
      omega
    have hbefore : before.flatten.length + (m.length + 0) = (before ++ [cp.take m.length]).flatten.length := by simp [htake]
    have hwhole : (before ++ [cp.take m.length]).flatten ++ cp.drop m.length = whole := by
      rw [List.flatten_append, List.flatten_singleton, List.append_assoc, List.take_append_drop]
      simpa using hbytes
    have hhead : (before ++ [cp.take m.length]).head? = some m0 := by
      rw [List.head?_append, hfirst]
      rfl
    simp only [hmin, hm, hbefore, hmb, if_true]
    by_cases hdone : cp.drop m.length = []
    · rw [if_pos hdone]
      rw [hdone, List.append_nil] at hwhole
      exact ⟨hwhole, hhead, by rw [hwhole]⟩
    · rw [if_neg hdone]
      refine copying_fresh mb asked _ hhead hwhole hdone ?_
      rw [List.length_drop]
      simp only [Copying.rounds]
      omega

theorem copy_end (hmb : ∀ n, mb.get n = true) {n : Nat} (hs : CopyingTo m0 whole s)
    (hn : s.cp.length + s.rest.length + 1 < n) : ∃ r, loop (copyStep mb) n s = some r ∧ Copied m0 whole r := by
  refine loop_total (I := CopyingTo m0 whole) (μ := Copying.rounds) (fun s hs => copy_round hmb hs) hs ?_
  unfold Copying.rounds
  split <;> omega

/-- At the end of the chain `m_copyback` appends, and leaves the first mbuf alone. -/
theorem copyback_end (hmb : ∀ n, mb.get n = true) (asked : Nat) (hp : p.chain = m0 :: rest) (hlen : p.len = p.chain.flatten.length)
    (hcp : cp ≠ []) : ∃ p' asked' rest', mCopyback mb asked p p.len cp = some (p', asked') ∧ p'.chain = m0 :: rest' ∧
      p'.chain.flatten = p.chain.flatten ++ cp ∧ p'.len = p.len + cp.length := by
  have hstart : Seeking p.chain cp ⟨[], m0, rest, p.len, 0, cp, asked⟩ := ⟨hp.symm, by rw [hlen, hp], rfl, rfl⟩
  have hfuel : rest.length < p.chain.length + p.len + cp.length + 2 := by
    rw [hp, List.length_cons]
    omega
  obtain ⟨⟨b, s⟩, hseek, hb, ⟨hchain, hoff, htot, hscp⟩, hin⟩ := seek_end mb hstart hfuel
  subst hb
  simp only at hchain hoff htot hscp hin
  have hoff' : s.off = s.m.length ∧ s.rest.flatten.length = 0 := by
    rw [List.flatten_cons, List.length_append] at hoff
    omega
  have hrest : s.rest.flatten = [] := List.length_eq_zero_iff.1 hoff'.2
  have hstart2 : CopyingTo m0 (p.chain.flatten ++ cp) s := by
    refine ⟨.inl ⟨hoff'.1, hrest, ?_⟩, ?_, htot, by rw [hscp]; exact hcp⟩
    · cases hbefore : s.before with
      | nil =>
        rw [hbefore, hp] at hchain
        exact congrArg some (List.cons.inj hchain).1
      | cons x before =>
        rw [hbefore, hp] at hchain
        exact congrArg some (List.cons.inj hchain).1
    · rw [← hchain, hscp, hoff'.1, List.take_length]
      simp [hrest]
  have hlens : s.rest.length ≤ p.chain.length := by
    rw [← hchain, List.length_append, List.length_cons]
    omega
  obtain ⟨r, hcopy, hbytes, hfirst, htotal⟩ := copy_end hmb hstart2 (n := p.chain.length + p.len + cp.length + 2) (by rw [hscp]; omega)
  obtain ⟨rest', hrest'⟩ : ∃ rest', r.before ++ r.m :: r.rest = m0 :: rest' := by
    cases hl : r.before ++ r.m :: r.rest with
    | nil => rw [hl] at hfirst; cases hfirst
    | cons x rest' =>
      rw [hl] at hfirst
      obtain rfl := Option.some.inj hfirst
      exact ⟨rest', rfl⟩
  refine ⟨⟨r.before ++ r.m :: r.rest, max p.len r.totlen⟩, r.asked, rest', ?_, hrest', hbytes, ?_⟩
  · unfold mCopyback
    simp only [hp] at hseek hcopy ⊢
    rw [hseek]
    simp only
    rw [hcopy]
    rfl
  · show max p.len r.totlen = p.len + cp.length
    rw [htotal, List.length_append, ← hlen]
    omega

end Copyback

/-! ## The slots -/

section Slots
variable {mb : Mbufs} {type : Nat}

/-- The loop of `rt_msg1` writes the images. -/
theorem msg1Slots_spec (hmb : ∀ n, mb.get n = true) {m0 : List UInt8} (l : List (Option Sockaddr)) :
    ∀ (i addrs asked : Nat) (p : Packet) (rest : List (List UInt8)), p.chain = m0 :: rest → p.len = p.chain.flatten.length →
      ∃ p' rest', msg1Slots mb i l addrs p p.len asked = some (marked i l addrs, p', p'.len) ∧ p'.chain = m0 :: rest' ∧
        p'.chain.flatten = p.chain.flatten ++ encode l ∧ p'.len = p'.chain.flatten.length := by
  induction l with
  | nil => exact fun i addrs asked p rest hp hlen => ⟨p, rest, rfl, hp, (List.append_nil _).symm, hlen⟩
  | cons x l ih =>
    intro i addrs asked p rest hp hlen
    cases x with
    | none => exact ih (i + 1) addrs asked p rest hp hlen
    | some sa =>
      obtain ⟨p1, asked1, rest1, hcopy, hp1, hbytes, hlen1⟩ := copyback_end hmb asked hp hlen (image_ne_nil sa)
      have hlen1' : p1.len = p1.chain.flatten.length := by rw [hlen1, hbytes, hlen, List.length_append]
      obtain ⟨p2, rest2, hslots, hp2, hbytes2, hlen2⟩ := ih (i + 1) (addrs ||| 1 <<< i) asked1 p1 rest1 hp1 hlen1'
      refine ⟨p2, rest2, ?_, hp2, by rw [hbytes2, hbytes, List.append_assoc]; rfl, hlen2⟩
      rw [msg1Slots, hcopy]
      simp only
      rw [← length_image, ← hlen1, hslots]
      rfl

/-- The loop of `rt_msg2` without a buffer only adds up. -/
theorem msg2Slots_none (l : List (Option Sockaddr)) :
    ∀ i addrs len, msg2Slots i l addrs none len = some (marked i l addrs, none, len + (encode l).length) := by
  induction l with
  | nil => exact fun i addrs len => rfl
  | cons x l ih =>
    intro i addrs len
    cases x with
    | none => exact ih (i + 1) addrs len
    | some sa =>
      rw [msg2Slots, ih, encode, List.length_append, length_image, Nat.add_assoc]
      rfl

/-- With a buffer that is large enough it writes the images. -/
theorem msg2Slots_some (l : List (Option Sockaddr)) : ∀ i addrs len (b : List UInt8), len + (encode l).length ≤ b.length →
    msg2Slots i l addrs (some b) len = some (marked i l addrs,
      some (b.take len ++ encode l ++ b.drop (len + (encode l).length)), len + (encode l).length) := by
  induction l with
  | nil => exact fun i addrs len b _ => by simp [msg2Slots, encode, marked]
  | cons x l ih =>
    intro i addrs len b hb
    cases x with
    | none => exact ih (i + 1) addrs len b hb
    | some sa =>
      rw [encode, List.length_append] at hb
      have hcopy : bcopy sa.image b len = some (b.take len ++ sa.image ++ b.drop (len + sa.image.length)) := if_pos (by omega)
      have hfront : (b.take len ++ sa.image).length = len + sa.image.length := by
        rw [List.length_append, List.length_take]
        omega
      rw [msg2Slots, hcopy]
      simp only
      rw [← length_image, ih]
      · rw [← hfront, List.take_left, List.drop_length_add_append, hfront, List.drop_drop, encode, List.length_append, Nat.add_assoc,
          List.append_assoc (b.take len)]
        rfl
      · rw [List.length_append, hfront, List.length_drop]
        omega

/-! ## The header -/

theorem length_stamp {m : List UInt8} {len : Nat} (h : 4 ≤ m.length) : (stamp len type m).length = m.length := by
  rw [stamp, List.length_append, List.length_drop]
  simp
  omega

theorem drop_stamp {m : List UInt8} {len k : Nat} (h : 4 ≤ k) : (stamp len type m).drop k = m.drop k := by
  rw [stamp, List.drop_append]
  obtain ⟨k, rfl⟩ : ∃ j, k = j + 4 := ⟨k - 4, by omega⟩
  simp [Nat.add_comm]

theorem msglen_stamp (type : Nat) (m : List UInt8) {len : Nat} (h : len < 65536) : msglen (stamp len type m) = len := by
  show (UInt8.ofNat len).toNat + 256 * (UInt8.ofNat (len / 256)).toNat = len
  rw [UInt8.toNat_ofNat', UInt8.toNat_ofNat']
  omega

theorem header_ge (type : Nat) : 4 ≤ headerLen type ∧ headerLen type ≤ MHLEN := by
  unfold headerLen
  split
  · decide
  · split <;> decide

end Slots

/-! ## Bits -/

/-- Whether the slot `k` has an address. -/
def present (l : List (Option Sockaddr)) (k : Nat) : Bool := (l[k]?.join).isSome

theorem testBit_marked (l : List (Option Sockaddr)) :
    ∀ i addrs k, (marked i l addrs).testBit k = (addrs.testBit k || (decide (i ≤ k) && present l (k - i))) := by
  induction l with
  | nil =>
    intro i addrs k
    simp [marked, present]
  | cons x l ih =>
    intro i addrs k
    -- Slot `i` is the first of the list; those behind it are the slots from `i + 1` on.
    have hnext : (decide (i ≤ k) && present (x :: l) (k - i)) = (decide (i = k) && x.isSome || decide (i + 1 ≤ k) && present l (k - (i + 1))) := by
      rcases Nat.lt_trichotomy i k with hlt | rfl | hgt
      · obtain ⟨j, rfl⟩ : ∃ j, k = i + 1 + j := ⟨k - (i + 1), by omega⟩
        have hj : i + 1 + j - i = j + 1 := by omega
        have hne : ¬i = i + 1 + j := by omega
        rw [hj, Nat.add_sub_cancel_left]
        simp [present, hne]
        omega
      · have hlt : ¬i + 1 ≤ i := by omega
        simp [present, hlt]
      · have h1 : ¬i ≤ k := by omega
        have h2 : ¬i = k := by omega
        have h3 : ¬i + 1 ≤ k := by omega
        simp [h1, h2, h3]
    rw [hnext]
    cases x with
    | none =>
      rw [marked, ih]
      simp
    | some sa =>
      rw [marked, ih, Nat.testBit_or, Nat.one_shiftLeft, Nat.testBit_two_pow]
      simp [Bool.or_assoc]

theorem marked_again (l : List (Option Sockaddr)) : marked 0 l (marked 0 l 0) = marked 0 l 0 := by
  apply Nat.eq_of_testBit_eq
  intro k
  rw [testBit_marked, testBit_marked]
  simp

/-! ## The two messages -/

/-- The length of a message. -/
def messageLen (type : Nat) (l : List (Option Sockaddr)) : Nat := headerLen type + (encode l).length

/-- `msg` has the length it says, and the addresses of the slots behind the header. -/
structure Carries (type : Nat) (l : List (Option Sockaddr)) (msg : List UInt8) : Prop where
  length : msg.length = messageLen type l
  msglen : msglen msg = messageLen type l
  body : msg.drop (headerLen type) = encode l

/-- The temporary memory of a walk has the size it is said to have. -/
def Walkarg.Sized (w : Walkarg) : Prop := ∀ b ∈ w.w_tmem, b.length = w.w_tmemsize

section Messages
variable {mb : Mbufs} {type : Nat} {info : AddrInfo}

theorem rtMsg1_spec (hmb : ∀ n, mb.get n = true) (hlen : messageLen type info.rti_info < 65536) :
    ∃ p, rtMsg1 mb type info = some (some p, { info with rti_addrs := marked 0 info.rti_info info.rti_addrs }) ∧
      p.len = messageLen type info.rti_info ∧ Carries type info.rti_info p.chain.flatten := by
  obtain ⟨hge, hle⟩ := header_ge type
  obtain ⟨p, rest, hslots, hp, hbytes, hplen⟩ := msg1Slots_spec hmb info.rti_info 0 info.rti_addrs 1
    ⟨[replicate (headerLen type) 0], headerLen type⟩ [] rfl (by simp)
  have hrest : rest.flatten = encode info.rti_info := by
    rw [hp] at hbytes
    simpa using hbytes
  have htotal : p.len = messageLen type info.rti_info := by
    rw [hplen, hp, List.flatten_cons, List.length_append, hrest, List.length_replicate]
    rfl
  have hstamp : (stamp p.len type (replicate (headerLen type) 0)).length = headerLen type := by
    rw [length_stamp (by rw [List.length_replicate]; exact hge), List.length_replicate]
  refine ⟨⟨stamp p.len type (replicate (headerLen type) 0) :: rest, p.len⟩, ?_, htotal, ⟨?_, ?_, ?_⟩⟩
  · have hget : ¬mb.get 0 = false := by simp [hmb]
    unfold rtMsg1
    simp only [if_neg hget, if_neg (Nat.not_lt.2 hle), gt_iff_lt, hslots, ne_eq, not_true_eq_false, if_false, hp]
  · rw [List.flatten_cons, List.length_append, hstamp, hrest]
    rfl
  · rw [← htotal]
    exact msglen_stamp type [] (htotal ▸ hlen)
  · rw [List.flatten_cons, hrest]
    exact List.drop_left' hstamp

/-- A pass with a buffer that is large enough. -/
theorem msg2Pass_some (info : AddrInfo) (hlen : messageLen type info.rti_info < 65536) {b : List UInt8} (hb : messageLen type info.rti_info ≤ b.length) :
    ∃ b', msg2Pass type info (some b) = some (messageLen type info.rti_info, { info with rti_addrs := marked 0 info.rti_info info.rti_addrs },
      some b') ∧ b'.length = b.length ∧ Carries type info.rti_info (b'.take (messageLen type info.rti_info)) := by
  obtain ⟨hge, -⟩ := header_ge type
  have hslots := msg2Slots_some info.rti_info 0 info.rti_addrs (headerLen type) b hb
  let b1 := b.take (headerLen type) ++ encode info.rti_info ++ b.drop (messageLen type info.rti_info)
  have hmsg : messageLen type info.rti_info = headerLen type + (encode info.rti_info).length := rfl
  have hfront : (b.take (headerLen type)).length = headerLen type := by
    rw [List.length_take]
    omega
  have hlen1 : b1.length = b.length := by
    rw [List.length_append, List.length_append, hfront, List.length_drop]
    omega
  have hstamp : (stamp (messageLen type info.rti_info) type b1).length = b.length := by
    rw [length_stamp (by omega), hlen1]
  refine ⟨stamp (messageLen type info.rti_info) type b1, ?_, hstamp, ⟨?_, ?_, ?_⟩⟩
  · unfold msg2Pass
    rw [hslots]
    rfl
  · rw [List.length_take, hstamp]
    omega
  · have htake : ∀ m : List UInt8, 2 ≤ messageLen type info.rti_info → msglen (m.take (messageLen type info.rti_info)) = msglen m := by
      intro m h2
      unfold msglen
      rw [List.getD_eq_getElem?_getD, List.getD_eq_getElem?_getD, List.getElem?_take_of_lt (by omega), List.getElem?_take_of_lt (by omega)]
      rfl
    rw [htake _ (by omega), msglen_stamp type _ hlen]
  · rw [List.drop_take, drop_stamp hge, hmsg, Nat.add_sub_cancel_left]
    show ((b.take (headerLen type) ++ encode info.rti_info ++ _).drop _).take _ = _
    rw [List.append_assoc, List.drop_left' hfront, List.take_left]

theorem msg2Pass_none : msg2Pass type info none =
    some (messageLen type info.rti_info, { info with rti_addrs := marked 0 info.rti_info info.rti_addrs }, none) := by
  unfold msg2Pass
  rw [msg2Slots_none]
  rfl

theorem grow_spec (malloc : Option (Nat → UInt8)) (len : Nat) {w : Walkarg} (h : w.Sized) :
    (w.grow malloc len).Sized ∧ ∀ b ∈ (w.grow malloc len).w_tmem, len ≤ b.length := by
  unfold Walkarg.grow
  split
  · cases malloc with
    | none => exact ⟨fun b hb => (nomatch hb), fun b hb => (nomatch hb)⟩
    | some f =>
      refine ⟨fun b hb => ?_, fun b hb => ?_⟩ <;>
      · obtain rfl := Option.some.inj hb
        simp
  · rename_i hsize
    refine ⟨h, fun b hb => ?_⟩
    rw [h b hb]
    exact Nat.le_of_not_lt hsize

theorem rtMsg2_spec (malloc : Option (Nat → UInt8)) (cp : Option (List UInt8)) (w : Option Walkarg)
    (hlen : messageLen type info.rti_info < 65536) (hcp : ∀ b ∈ cp, messageLen type info.rti_info ≤ b.length) (hw : ∀ v ∈ w, v.Sized) :
    ∃ r, rtMsg2 malloc type info cp w = some r ∧ r.len = messageLen type info.rti_info ∧
      r.info = { info with rti_addrs := marked 0 info.rti_info 0 } ∧ (∀ v ∈ r.w, v.Sized) ∧
      (cp.isSome → r.cp0.isSome) ∧ (∀ b ∈ r.cp0, Carries type info.rti_info (b.take r.len)) := by
  let info0 : AddrInfo := { info with rti_addrs := 0 }
  cases cp with
  | some b =>
    obtain ⟨b', hpass, -, hcarries⟩ := msg2Pass_some info0 hlen (hcp b rfl)
    refine ⟨⟨_, _, some b', w⟩, ?_, rfl, rfl, hw, fun _ => rfl, ?_⟩
    · unfold rtMsg2
      rw [hpass]
      cases w with
      | none => rfl
      | some w => rfl
    · intro b'' hb
      obtain rfl := Option.some.inj hb
      exact hcarries
  | none =>
    have hpass : msg2Pass type info0 none = _ := msg2Pass_none
    cases w with
    | none =>
      refine ⟨⟨_, _, none, none⟩, ?_, rfl, rfl, hw, nofun, fun b hb => (nomatch hb)⟩
      unfold rtMsg2
      rw [hpass]
      rfl
    | some w =>
      unfold rtMsg2
      rw [hpass]
      simp only
      have hsized : ({ w with w_needed := w.w_needed + messageLen type info.rti_info } : Walkarg).Sized := hw w rfl
      obtain ⟨hgrow, hroom⟩ := grow_spec malloc (messageLen type info.rti_info) hsized
      by_cases hgo : w.w_needed + messageLen type info.rti_info ≤ 0 ∧ w.w_where = true
      · rw [if_pos hgo]
        generalize ({ w with w_needed := w.w_needed + messageLen type info.rti_info } : Walkarg).grow malloc
          (messageLen type info.rti_info) = v at *
        cases hv : v.w_tmem with
        | none =>
          refine ⟨_, rfl, rfl, rfl, ?_, nofun, fun b hb => (nomatch hb)⟩
          intro u hu
          obtain rfl := Option.some.inj hu
          exact fun b hb => (nomatch hb)
        | some b =>
          obtain ⟨b', hagain, hlenb, hcarries⟩ := msg2Pass_some { info0 with rti_addrs := marked 0 info.rti_info 0 } hlen
            (hroom b hv)
          simp only
          rw [hagain]
          refine ⟨_, rfl, rfl, ?_, ?_, nofun, ?_⟩
          · show ({ info with rti_addrs := _ } : AddrInfo) = _
            rw [marked_again]
          · intro u hu c hc
            obtain rfl := Option.some.inj hu
            obtain rfl := Option.some.inj hc
            exact hlenb.trans (hgrow b hv)
          · intro c hc
            obtain rfl := Option.some.inj hc
            exact hcarries
      · rw [if_neg hgo]
        refine ⟨_, rfl, rfl, rfl, ?_, nofun, fun b hb => (nomatch hb)⟩
        intro u hu
        obtain rfl := Option.some.inj hu
        exact hsized

end Messages

end BsdKernel.Rtsock
