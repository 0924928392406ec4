import BsdKernel.Kern.Mbuf
/-!
# Splitting a chain

`m_split` of `kern/uipc_mbuf.c`. It sets both `m_pkthdr.len`s before it knows that
all allocations succeed, and where the split leaves more than `MHLEN` bytes of a
plain mbuf, it puts an empty mbuf with the header in front of them, whose `m_len`
nothing has set. `m_split_keeps` says that it does what it promises in all other
cases, and in this one if the second allocation succeeds and `m_len` happens to be
zero.
-/

namespace BsdKernel.Mbufs

open BsdKernel.Lib

/-- `m->m_pkthdr.len = len`. -/
def Mbuf.setHdrLen (m : Mbuf) (len : Int) : Mbuf := { m with pkthdr := { m.pkthdr with len := len } }

/-- The first loop of `m_split`: the mbufs in front of `m`, `m`, those behind it,
and `len`. -/
def seek (len : Int) : List Mbuf → Option (List Mbuf × Mbuf × List Mbuf × Int)
  | [] => none
  | m :: ms => if len > m.len then (seek (len - m.len) ms).map fun (front, r) => (m :: front, r) else some ([], m, ms, len)

/-- `m0->m_pkthdr.len = len0`, where `m0` is the first of `front` and `m`. -/
def setLead (len0 : Int) : List Mbuf → Mbuf → List Mbuf × Mbuf
  | [], m => ([], m.setHdrLen len0)
  | m0 :: front, m => (m0.setHdrLen len0 :: front, m)

/-- From the label `extpacket` on: both chains. -/
def extpacket (front : List Mbuf) (m n : Mbuf) (rest : List Mbuf) (len : Int) : List Mbuf × List Mbuf :=
  let remain := m.len - len
  if m.flags.ext then
    (front ++ [{ m with ext := { m.ext with size := 0 }, len := len }],
      { n with flags := { n.flags with ext := true }, ext := m.ext, data := m.data + len, len := remain } :: rest)
  else (front ++ [{ m with len := len }], { n.write 0 m len remain with len := remain } :: rest)

/-- `m_split`, recursing at most `fuel` times: the chain `m0` that is left, and
the chain that is returned. -/
def m_split : Nat → Alloc → List Mbuf → Int → Option (List Mbuf × List Mbuf)
  | 0, _, _, _ => none
  | fuel + 1, alloc, chain, len0 =>
    match chain, seek len0 chain with
    | m0 :: _, some (front, m, rest, len) =>
      let remain := m.len - len
      if m0.flags.pkthdr then
        match alloc 0 with
        | none => some (chain, [])
        | some raw =>
          let n := { MGETHDR raw m0.type with pkthdr := ⟨m0.pkthdr.rcvif, m0.pkthdr.len - len0⟩ }
          let (front, m) := setLead len0 front m
          if m.flags.ext then some (extpacket front m n rest len)
          else if remain > MHLEN then
            -- m can't be the lead packet
            (m_split fuel (fun i => alloc (i + 1)) (m :: rest) len).map fun (ms, ns) =>
              if ns.isEmpty then (front ++ ms, []) else (front ++ ms, MH_ALIGN n 0 :: ns)
          else some (extpacket front m (MH_ALIGN n remain) rest len)
      else if remain = 0 then some (front ++ [m], rest)
      else
        match alloc 0 with
        | none => some (chain, [])
        | some raw => some (extpacket front m (M_ALIGN (MGET raw m.type) remain) rest len)
    | _, _ => some (chain, [])

theorem m_split_succ {alloc : Alloc} {chain : List Mbuf} {len0 : Int} {fuel : Nat} {r : List Mbuf × List Mbuf}
    (h : m_split fuel alloc chain len0 = some r) : m_split (fuel + 1) alloc chain len0 = some r := by
  induction fuel generalizing alloc chain len0 r with
  | zero => cases h
  | succ fuel ih =>
    generalize fuel + 1 = k at ih ⊢
    cases chain with
    | nil => exact h
    | cons m0 ms =>
      cases hs : seek len0 (m0 :: ms) with
      | none =>
        simp only [m_split, hs] at h ⊢
        exact h
      | some c =>
        obtain ⟨front, m, rest, len⟩ := c
        simp only [m_split, hs] at h ⊢
        cases ha : alloc 0 with
        | none =>
          rw [ha] at h
          exact h
        | some raw =>
          rw [ha] at h
          simp only at h ⊢
          by_cases hp : m0.flags.pkthdr = true
          · rw [if_pos hp] at h ⊢
            by_cases he : (setLead len0 front m).2.flags.ext = true
            · rw [if_pos he] at h ⊢
              exact h
            · rw [if_neg he] at h ⊢
              by_cases hl : m.len - len > MHLEN
              · rw [if_pos hl] at h ⊢
                obtain ⟨x, hx, hr⟩ := Option.map_eq_some_iff.1 h
                rw [ih hx]
                exact congrArg some hr
              · rw [if_neg hl] at h ⊢
                exact h
          · rw [if_neg hp] at h ⊢
            exact h

theorem m_split_mono {alloc : Alloc} {chain : List Mbuf} {len0 : Int} {fuel fuel' : Nat} {r : List Mbuf × List Mbuf}
    (hle : fuel ≤ fuel') (h : m_split fuel alloc chain len0 = some r) : m_split fuel' alloc chain len0 = some r := by
  induction hle with
  | refl => exact h
  | step _ ih => exact m_split_succ ih

/-! ## Where the chain is split -/

section Seek
variable {m m0 n : Mbuf} {ms front rest chain : List Mbuf} {len len0 : Int}

/-- The mbuf `m` with the byte behind the first `len0` bytes, or with the last of
them, and the mbufs around it. -/
structure Cut (chain : List Mbuf) (len0 : Int) (front : List Mbuf) (m : Mbuf) (rest : List Mbuf) (len : Int) : Prop where
  eq : chain = front ++ m :: rest
  sum : ((bytes front).length : Int) + len = len0
  nonneg : 0 ≤ len
  le : len ≤ m.len
  pos : front ≠ [] → 0 < len

theorem seek_cut (h : Chain chain) (h₀ : 0 ≤ len0) (hlt : len0 < (bytes chain).length) :
    ∃ front m rest len, seek len0 chain = some (front, m, rest, len) ∧ Cut chain len0 front m rest len := by
  induction chain generalizing len0 with
  | nil => simp at hlt; omega
  | cons m ms ih =>
    obtain ⟨hm, hms⟩ := chain_cons.1 h
    have hlen := hm.length
    simp only [bytes_cons, List.length_append, Int.natCast_add, hlen] at hlt
    rw [seek]
    by_cases hgt : len0 > m.len
    · obtain ⟨front, m', rest, len, hs, hc⟩ := @ih (len0 - m.len) hms (by omega) (by omega)
      have hsum := hc.sum
      refine ⟨m :: front, m', rest, len, by rw [if_pos hgt, hs]; rfl, ?_, ?_, hc.nonneg, hc.le, fun _ => ?_⟩
      · rw [hc.eq, List.cons_append]
      · rw [bytes_cons, List.length_append, Int.natCast_add, hlen]
        omega
      · by_cases hf : front = []
        · subst hf
          simp only [bytes_nil, List.length_nil] at hsum
          omega
        · exact hc.pos hf
    · exact ⟨[], m, ms, len0, if_neg hgt, rfl, by simp, h₀, by omega, fun hf => absurd rfl hf⟩

theorem Cut.not_behind {x rest' : List Mbuf} {m' : Mbuf} {len' : Int} (hm : m.Ok) (h : Cut chain len0 front m rest len)
    (h' : Cut chain len0 (front ++ m :: x) m' rest' len') : False := by
  have hpos := h'.pos (by simp)
  have hsum := h.sum
  have hsum' := h'.sum
  have hle := h.le
  have hlen := hm.length
  simp only [bytes_append, bytes_cons, List.length_append, Int.natCast_add] at hsum'
  omega

/-- The split falls into one mbuf only. -/
theorem Cut.unique {front' rest' : List Mbuf} {m' : Mbuf} {len' : Int} (hc : Chain chain)
    (h : Cut chain len0 front m rest len) (h' : Cut chain len0 front' m' rest' len') : m' = m ∧ len' = len := by
  have hm : m.Ok := hc m (by rw [h.eq]; simp)
  have hm' : m'.Ok := hc m' (by rw [h'.eq]; simp)
  rcases List.append_eq_append_iff.1 (h.eq.symm.trans h'.eq) with ⟨x, hx, hrest⟩ | ⟨x, hx, hrest⟩
  · cases x with
    | nil =>
      obtain rfl : front' = front := by simpa using hx
      obtain ⟨rfl, -⟩ := List.cons.inj hrest
      exact ⟨rfl, by have := h.sum; have := h'.sum; omega⟩
    | cons y x =>
      obtain ⟨rfl, -⟩ := List.cons.inj hrest
      exact (h.not_behind hm (hx ▸ h')).elim
  · cases x with
    | nil =>
      obtain rfl : front = front' := by simpa using hx
      obtain ⟨rfl, -⟩ := List.cons.inj hrest
      exact ⟨rfl, by have := h.sum; have := h'.sum; omega⟩
    | cons y x =>
      obtain ⟨rfl, -⟩ := List.cons.inj hrest
      exact (h'.not_behind hm' (hx ▸ h)).elim

end Seek

/-! ## The two halves of an mbuf -/

section Halves
variable {m m0 n : Mbuf} {front rest chain : List Mbuf} {len : Int}

theorem take_bytes (h₀ : 0 ≤ len) (h : len ≤ m.len) : ({ m with len := len } : Mbuf).bytes = m.bytes.take len.toNat := by
  have hpart := @part_bytes m 0 len (Int.le_refl 0) h₀ (by omega)
  rwa [Int.add_zero] at hpart

/-- What an mbuf keeps, and what the new mbuf gets. -/
structure Halved (m : Mbuf) (len : Int) (m' n' : Mbuf) (n : Mbuf) : Prop where
  front : m'.bytes = m.bytes.take len.toNat
  back : n'.bytes = m.bytes.drop len.toNat
  ok : m'.Ok
  okBack : n'.Ok
  flags : m'.flags = m.flags
  pkthdr : m'.pkthdr = m.pkthdr
  flagsBack : n'.flags.pkthdr = n.flags.pkthdr
  pkthdrBack : n'.pkthdr = n.pkthdr

theorem extpacket_halves (front : List Mbuf) (rest : List Mbuf) (hm : m.Ok) (h₀ : 0 ≤ len) (hle : len ≤ m.len)
    (hext : n.flags.ext = false) (hroom : m.flags.ext = false → n.low ≤ n.data ∧ n.data + (m.len - len) ≤ MLEN) :
    ∃ m' n', extpacket front m n rest len = (front ++ [m'], n' :: rest) ∧ Halved m len m' n' n := by
  have hlow := hm.low
  have hhigh := hm.high
  have hdrop : m.bytes.drop len.toNat = bytesAt m.mem (m.data + len) (m.len - len).toNat := by
    rw [part_bytes h₀ (by omega) (by omega), List.take_of_length_le]
    simp only [List.length_drop, length_bytes]
    omega
  by_cases he : m.flags.ext
  · refine ⟨{ m with ext := { m.ext with size := 0 }, len := len },
      { n with flags := { n.flags with ext := true }, ext := m.ext, data := m.data + len, len := m.len - len },
      by rw [extpacket, if_pos he], ?_, ?_, ⟨h₀, hlow, ?_⟩, ⟨by simp only; omega, ?_, ?_⟩, rfl, rfl, rfl, rfl⟩
    · have hsize : ({ m with ext := { m.ext with size := 0 }, len := len } : Mbuf).bytes =
          ({ m with len := len } : Mbuf).bytes := by simp only [Mbuf.bytes, Mbuf.mem]
      rw [hsize, take_bytes h₀ hle]
    · rw [hdrop]
      simp only [Mbuf.bytes, Mbuf.mem, if_true, he]
    · have : m.data + len ≤ m.high := by omega
      exact this
    · simp only [Mbuf.low, he, if_true] at hlow ⊢
      omega
    · simp only [Mbuf.high, he, if_true] at hhigh ⊢
      omega
  · have he' : m.flags.ext = false := by simpa using he
    obtain ⟨hnlow, hnhigh⟩ := hroom he'
    refine ⟨{ m with len := len }, { n.write 0 m len (m.len - len) with len := m.len - len },
      by rw [extpacket, if_neg he], take_bytes h₀ hle, ?_, ⟨h₀, hlow, ?_⟩, ⟨by simp only; omega, ?_, ?_⟩, rfl, rfl, rfl, rfl⟩
    · rw [hdrop]
      simp only [Mbuf.bytes, Mbuf.write, Mbuf.mem, hext, Bool.false_eq_true, if_false, Int.add_zero]
      exact copy_bytes _ _ _ _ _
    · have : m.data + len ≤ m.high := by omega
      exact this
    · exact hnlow
    · simp only [Mbuf.high, Mbuf.write, hext, Bool.false_eq_true, if_false]
      exact hnhigh

end Halves

/-! ## The promise -/

/-- `m0` has the first `len0` bytes of the chain and `n` the others, and the
packet headers say so. -/
structure Splits (chain : List Mbuf) (len0 : Int) (m0 n : List Mbuf) : Prop where
  front : bytes m0 = (bytes chain).take len0.toNat
  back : bytes n = (bytes chain).drop len0.toNat
  ok : Chain m0
  okBack : Chain n
  hdr : ∀ h ∈ chain.head?, h.flags.pkthdr = true → ∃ h' ∈ m0.head?, h'.flags.pkthdr = true ∧
    h'.pkthdr = ⟨h.pkthdr.rcvif, len0⟩
  hdrBack : ∀ h ∈ chain.head?, h.flags.pkthdr = true → ∃ h' ∈ n.head?, h'.flags.pkthdr = true ∧
    h'.pkthdr = ⟨h.pkthdr.rcvif, (bytes chain).length - len0⟩

/-- `m_split` returns the rest of the chain, or `NULL` with everything as before
after an allocation has failed. -/
def Keeps (alloc : Alloc) (chain : List Mbuf) (len0 : Int) (r : List Mbuf × List Mbuf) : Prop :=
  (r.2 ≠ [] ∧ Splits chain len0 r.1 r.2) ∨ (r = (chain, []) ∧ (alloc 0 = none ∨ alloc 1 = none))

/-- The chain has a packet header, and the first `len0` bytes end in a plain mbuf
with more than `MHLEN` bytes behind them. -/
def LongTail (chain : List Mbuf) (len0 : Int) : Prop :=
  (∃ m0 ∈ chain.head?, m0.flags.pkthdr = true) ∧
    ∃ front m rest len, Cut chain len0 front m rest len ∧ m.flags.ext = false ∧ m.len - len > MHLEN

section Promise
variable {m m0 n : Mbuf} {front rest ms chain : List Mbuf} {len len0 : Int} {alloc : Alloc}

theorem Cut.take (h : Cut chain len0 front m rest len) :
    (bytes chain).take len0.toNat = bytes front ++ m.bytes.take len.toNat := by
  have hsum := h.sum
  have hle := h.le
  have h₀ := h.nonneg
  have hlen : len0.toNat = (bytes front).length + len.toNat := by omega
  rw [h.eq, bytes_append, bytes_cons, hlen, List.take_length_add_append]
  rw [List.take_append_of_le_length (by rw [length_bytes]; omega)]

theorem Cut.drop (h : Cut chain len0 front m rest len) :
    (bytes chain).drop len0.toNat = m.bytes.drop len.toNat ++ bytes rest := by
  have hsum := h.sum
  have hle := h.le
  have h₀ := h.nonneg
  have hlen : len0.toNat = (bytes front).length + len.toNat := by omega
  rw [h.eq, bytes_append, bytes_cons, hlen, List.drop_length_add_append]
  rw [List.drop_append_of_le_length (by rw [length_bytes]; omega)]

/-- The mbufs up to the cut, with `len0` in the first of them. -/
theorem setLead_spec (len0 : Int) (front : List Mbuf) (m : Mbuf) :
    ∃ front' m', setLead len0 front m = (front', m') ∧ bytes front' = bytes front ∧ (Chain front → Chain front') ∧
      (m' = m ∨ m' = m.setHdrLen len0) ∧ (front ≠ [] → m' = m) ∧
      ∀ x : Mbuf, x.flags = m'.flags → x.pkthdr = m'.pkthdr → ∀ m0 ∈ (front ++ [m]).head?, m0.flags.pkthdr = true →
        ∃ h ∈ (front' ++ [x]).head?, h.flags.pkthdr = true ∧ h.pkthdr = ⟨m0.pkthdr.rcvif, len0⟩ := by
  cases front with
  | nil =>
    refine ⟨[], m.setHdrLen len0, rfl, rfl, id, .inr rfl, fun h => absurd rfl h, fun x hf hp m0 hm0 hpk => ?_⟩
    obtain rfl : m = m0 := by simpa using hm0
    exact ⟨x, rfl, by rw [hf]; exact hpk, by rw [hp]; rfl⟩
  | cons m0 front =>
    refine ⟨m0.setHdrLen len0 :: front, m, rfl, rfl, fun h => ?_, .inl rfl, fun _ => rfl, fun x _ _ h hh hpk => ?_⟩
    · obtain ⟨h0, hrest⟩ := chain_cons.1 h
      exact chain_cons.2 ⟨⟨h0.len, h0.low, h0.high⟩, hrest⟩
    · obtain rfl : m0 = h := by simpa using hh
      exact ⟨m0.setHdrLen len0, rfl, hpk, rfl⟩

theorem setHdrLen_ok (h : m.Ok) (len : Int) : (m.setHdrLen len).Ok := ⟨h.len, h.low, h.high⟩

/-- A split at the label `extpacket`. -/
theorem splits_of_halved (hc : Chain chain) (hcut : Cut chain len0 front m rest len) {front' : List Mbuf} {m' m'' n' : Mbuf}
    (hfront : bytes front' = bytes front) (hok : Chain front') (hm' : m' = m ∨ m' = m.setHdrLen len0)
    (hh : Halved m' len m'' n' n)
    (hdr : ∀ h ∈ chain.head?, h.flags.pkthdr = true → ∃ h' ∈ (front' ++ [m'']).head?, h'.flags.pkthdr = true ∧
      h'.pkthdr = ⟨h.pkthdr.rcvif, len0⟩)
    (hback : ∀ h ∈ chain.head?, h.flags.pkthdr = true → n.flags.pkthdr = true ∧
      n.pkthdr = ⟨h.pkthdr.rcvif, (bytes chain).length - len0⟩) :
    Splits chain len0 (front' ++ [m'']) (n' :: rest) := by
  have hbytes : m'.bytes = m.bytes := by
    rcases hm' with rfl | rfl
    · rfl
    · rfl
  have hrest : Chain rest := fun x hx => hc x (by rw [hcut.eq]; simp [hx])
  refine ⟨?_, ?_, chain_append.2 ⟨hok, by simpa [Chain] using hh.ok⟩, chain_cons.2 ⟨hh.okBack, hrest⟩, hdr,
    fun h hh' hpk => ⟨n', rfl, ?_, ?_⟩⟩
  · rw [hcut.take, bytes_append, hfront, bytes_cons, bytes_nil, List.append_nil, hh.front, hbytes]
  · rw [hcut.drop, bytes_cons, hh.back, hbytes]
  · rw [hh.flagsBack]
    exact (hback h hh' hpk).1
  · rw [hh.pkthdrBack]
    exact (hback h hh' hpk).2

theorem longword_spec (x : Int) : longword x ≤ x ∧ (0 ≤ x → 0 ≤ longword x) := by
  unfold longword
  omega

theorem len_le_of_plain (hm : m.Ok) (he : m.flags.ext = false) :
    m.len ≤ MLEN ∧ (m.flags.pkthdr = true → m.len ≤ MHLEN) := by
  have hlow := hm.low
  have hhigh := hm.high
  simp only [Mbuf.high, Mbuf.low, he, Bool.false_eq_true, if_false, pktdat] at hlow hhigh
  unfold MLEN MHLEN at *
  constructor
  · split at hlow <;> omega
  · intro hp
    rw [if_pos hp] at hlow
    omega

theorem lead_of_cut (hcut : Cut chain len0 front m rest len) : chain.head? = (front ++ [m]).head? := by
  rw [hcut.eq]
  cases front <;> rfl

theorem Splits.ne_nil {ms ns : List Mbuf} (h : Splits chain len0 ms ns) (h₀ : 0 ≤ len0) (hlt : len0 < (bytes chain).length) :
    ns ≠ [] := by
  rintro rfl
  have hlen := congrArg List.length h.back
  simp only [bytes_nil, List.length_nil, List.length_drop] at hlen
  omega

/-- A chain with no packet header. -/
theorem split_plain (hc : Chain chain) (hcut : Cut chain len0 front m rest len)
    (hseek : seek len0 chain = some (front, m, rest, len)) (hp : ∀ h ∈ chain.head?, ¬h.flags.pkthdr = true) (fuel : Nat) :
    ∃ r, m_split (fuel + 1) alloc chain len0 = some r ∧
      if m.len - len ≠ 0 ∧ alloc 0 = none then r = (chain, []) else Splits chain len0 r.1 r.2 := by
  have hm : m.Ok := hc m (by rw [hcut.eq]; simp)
  have hfront : Chain front := fun x hx => hc x (by rw [hcut.eq]; simp [hx])
  have hrest : Chain rest := fun x hx => hc x (by rw [hcut.eq]; simp [hx])
  obtain ⟨m0, ms, rfl⟩ : ∃ m0 ms, chain = m0 :: ms := by
    cases chain with
    | nil => exact absurd hcut.eq (by simp)
    | cons m0 ms => exact ⟨m0, ms, rfl⟩
  simp only [m_split, hseek, if_neg (hp m0 rfl)]
  by_cases hz : m.len - len = 0
  · have hwhole : m.bytes.take len.toNat = m.bytes := List.take_of_length_le (by rw [length_bytes]; omega)
    have hnone : m.bytes.drop len.toNat = [] := List.drop_of_length_le (by rw [length_bytes]; omega)
    refine ⟨(front ++ [m], rest), if_pos hz, ?_⟩
    rw [if_neg fun h => h.1 hz]
    refine ⟨?_, ?_, chain_append.2 ⟨hfront, by simpa [Chain] using hm⟩, hrest, fun h hh hpk => absurd hpk (hp h hh),
      fun h hh hpk => absurd hpk (hp h hh)⟩
    · rw [hcut.take, hwhole]
      simp
    · rw [hcut.drop, hnone]
      simp
  · rw [if_neg hz]
    cases ha : alloc 0 with
    | none => exact ⟨_, rfl, by rw [if_pos ⟨hz, rfl⟩]⟩
    | some raw =>
      have hle := hcut.le
      have h₀ := hcut.nonneg
      obtain ⟨m', n', he, hh⟩ := @extpacket_halves m (M_ALIGN (MGET raw m.type) (m.len - len)) len front rest hm h₀ hle rfl
        fun hplain => by
          have hroom := (len_le_of_plain hm hplain).1
          have hw := longword_spec (MLEN - (m.len - len))
          have hpos := hw.2 (by omega)
          simp only [M_ALIGN, MGET, Mbuf.low, Bool.false_eq_true, if_false]
          omega
      refine ⟨_, congrArg some he, ?_⟩
      rw [if_neg (by simp)]
      exact splits_of_halved hc hcut rfl hfront (.inl rfl) hh (fun h hh' hpk => absurd hpk (hp h hh'))
        fun h hh' hpk => absurd hpk (hp h hh')

theorem long_tail_front (hc : Chain chain) (hcut : Cut chain len0 front m rest len) (hplain : m.flags.ext = false)
    (hlong : m.len - len > MHLEN) : m.flags.pkthdr = false := by
  have hm : m.Ok := hc m (by rw [hcut.eq]; simp)
  have h₀ := hcut.nonneg
  by_contra hp
  have := (len_le_of_plain hm hplain).2 (by simpa using hp)
  omega

theorem Cut.inner (hc : Chain chain) (hcut : Cut chain len0 front m rest len) :
    Cut (m :: rest) len [] m rest len ∧ seek len (m :: rest) = some ([], m, rest, len) ∧ Chain (m :: rest) := by
  have hle := hcut.le
  refine ⟨⟨rfl, by simp, hcut.nonneg, hle, fun h => absurd rfl h⟩, if_neg (by omega), fun x hx => hc x ?_⟩
  rw [hcut.eq]
  exact List.mem_append_right _ hx

theorem lead_ok {raw : Mbuf} {type : Int} {hdr : Pkthdr} (hn : n = MH_ALIGN { MGETHDR raw type with pkthdr := hdr } 0) :
    n.Ok ↔ raw.len = 0 := by
  have hdata : n.data = 108 := by
    rw [hn]
    rfl
  have hlen : n.len = raw.len := by rw [hn]; rfl
  have hlow : n.low = 8 := by rw [hn]; rfl
  have hhigh : n.high = 108 := by rw [hn]; rfl
  constructor
  · intro h
    have h₁ := h.len
    have h₂ := h.high
    omega
  · intro h
    exact ⟨by omega, by omega, by omega⟩

/-- The call that puts an empty mbuf in front of a long tail. -/
theorem split_long {f0 : Mbuf} {raw n : Mbuf} (hc : Chain chain) (hcut : Cut chain len0 (f0 :: front) m rest len)
    (hlen : f0.pkthdr.len = (bytes chain).length) (hlt : len0 < (bytes chain).length) (hp : f0.flags.pkthdr = true)
    (hplain : m.flags.ext = false) (hlong : m.len - len > MHLEN)
    (hn : n = MH_ALIGN { MGETHDR raw f0.type with pkthdr := ⟨f0.pkthdr.rcvif, f0.pkthdr.len - len0⟩ } 0) (fuel : Nat) :
    ∃ r, ((m_split (fuel + 1) (fun i => alloc (i + 1)) (m :: rest) len).map fun (ms, ns) =>
        if ns.isEmpty then (f0.setHdrLen len0 :: front ++ ms, []) else (f0.setHdrLen len0 :: front ++ ms, n :: ns)) =
          some r ∧
      (Keeps alloc chain len0 r ↔ raw.len = 0 ∧ alloc 1 ≠ none) := by
  obtain ⟨hcut', hseek', hc'⟩ := hcut.inner hc
  have hnohdr := long_tail_front hc hcut hplain hlong
  have hne : m.len - len ≠ 0 := by
    unfold MHLEN at hlong
    omega
  obtain ⟨⟨ms, ns⟩, hrun, hr⟩ := @split_plain m [] rest (m :: rest) len len (fun i => alloc (i + 1)) hc' hcut' hseek'
    (by simpa using hnohdr) fuel
  rw [hrun]
  cases ha : alloc 1 with
  | none =>
    rw [if_pos ⟨hne, ha⟩] at hr
    cases hr
    refine ⟨_, rfl, iff_of_false ?_ (by simp)⟩
    rintro (⟨hnil, -⟩ | ⟨hsame, -⟩)
    · exact hnil rfl
    · -- the header that was set stays
      rw [hcut.eq] at hsame
      have hhead : f0.setHdrLen len0 = f0 := (List.cons.inj (congrArg Prod.fst hsame)).1
      have hl : len0 = f0.pkthdr.len := congrArg (fun x => x.pkthdr.len) hhead
      omega
  | some raw₁ =>
    rw [if_neg (by simp [ha])] at hr
    have hlt' : len < (bytes (m :: rest)).length := by
      have hm : m.Ok := hc' m (by simp)
      have hml := hm.length
      unfold MHLEN at hlong
      rw [bytes_cons, List.length_append]
      omega
    have hns : ns ≠ [] := hr.ne_nil hcut'.nonneg hlt'
    have hrun' : (if ns.isEmpty then (f0.setHdrLen len0 :: front ++ ms, []) else (f0.setHdrLen len0 :: front ++ ms, n :: ns)) =
        (f0.setHdrLen len0 :: front ++ ms, n :: ns) := if_neg (by simpa using hns)
    refine ⟨_, congrArg some hrun', ?_⟩
    simp only [ne_eq, reduceCtorEq, not_false_eq_true, and_true]
    rw [← lead_ok hn]
    constructor
    · rintro (⟨-, hs⟩ | ⟨hnull, -⟩)
      · exact hs.okBack n (by simp)
      · exact absurd (congrArg Prod.snd hnull) (by simp)
    · intro hok
      have hf0 : f0.Ok := hc f0 (by rw [hcut.eq]; simp)
      have hfront : Chain front := fun x hx => hc x (by rw [hcut.eq]; simp [hx])
      have hempty : n.bytes = [] := bytes_of_len_zero (by rw [hn]; exact (lead_ok hn).1 hok)
      refine .inl ⟨by simp, ?_, ?_, ?_, chain_cons.2 ⟨hok, hr.okBack⟩, fun h hh _ => ?_, fun h hh _ => ?_⟩
      · rw [hcut.take, bytes_append, hr.front, hcut'.take]
        rfl
      · rw [hcut.drop, bytes_cons, hempty, hr.back, hcut'.drop]
        rfl
      · exact chain_append.2 ⟨chain_cons.2 ⟨setHdrLen_ok hf0 len0, hfront⟩, hr.ok⟩
      · obtain rfl : f0 = h := by simpa [hcut.eq] using hh
        exact ⟨f0.setHdrLen len0, rfl, hp, rfl⟩
      · obtain rfl : f0 = h := by simpa [hcut.eq] using hh
        exact ⟨n, rfl, by rw [hn]; rfl, by rw [hn, ← hlen]; rfl⟩

/-- A chain with a packet header whose split mbuf is a cluster, or leaves at most
`MHLEN` bytes. -/
theorem split_header (hc : Chain chain) (hcut : Cut chain len0 front m rest len) (hm0 : chain.head? = some m0)
    (hlen : m0.pkthdr.len = (bytes chain).length)
    (hroom : m.flags.ext = false → m.len - len ≤ MHLEN) {m1 n : Mbuf} {front' : List Mbuf}
    (hlead : setLead len0 front m = (front', m1)) (hext : n.flags.ext = false) (hnp : n.flags.pkthdr = true)
    (hnh : n.pkthdr = ⟨m0.pkthdr.rcvif, m0.pkthdr.len - len0⟩)
    (hdata : m.flags.ext = false → n.data = pktdat + longword (MHLEN - (m.len - len))) :
    Splits chain len0 (extpacket front' m1 n rest len).1 (extpacket front' m1 n rest len).2 := by
  obtain ⟨front₁, m₁, hset, hfb, hfok, hm₁, -, hhdr⟩ := setLead_spec len0 front m
  obtain ⟨rfl, rfl⟩ : front' = front₁ ∧ m1 = m₁ := by
    rw [hlead] at hset
    exact Prod.mk.inj hset
  have hm : m.Ok := hc m (by rw [hcut.eq]; simp)
  have hfront : Chain front := fun x hx => hc x (by rw [hcut.eq]; simp [hx])
  have hsame : m1.Ok ∧ m1.len = m.len ∧ m1.flags = m.flags := by
    rcases hm₁ with rfl | rfl
    · exact ⟨hm, rfl, rfl⟩
    · exact ⟨setHdrLen_ok hm len0, rfl, rfl⟩
  have hle := hcut.le
  have h₀ := hcut.nonneg
  obtain ⟨m', n', he, hh⟩ := @extpacket_halves m1 n len front' rest hsame.1 h₀ (by omega) hext fun hplain => by
    rw [hsame.2.2] at hplain
    have hr := hroom hplain
    have hd := hdata hplain
    have hw := longword_spec (MHLEN - (m.len - len))
    have hpos := hw.2 (by omega)
    simp only [Mbuf.low, hext, hnp, Bool.false_eq_true, if_false, if_true, pktdat] at hd ⊢
    omega
  rw [he]
  refine splits_of_halved hc hcut hfb (hfok hfront) hm₁ hh (fun h hh' hpk => ?_) fun h hh' _ => ?_
  · exact hhdr m' hh.flags hh.pkthdr h (by rwa [← lead_of_cut hcut]) hpk
  · obtain rfl : m0 = h := Option.some.inj (hm0.symm.trans hh')
    exact ⟨hnp, by rw [hnh, hlen]⟩

/-- On a chain with its length in its packet header, if it has one, and for any
`len0` below that length: `m_split` comes back after at most one inner call, and
keeps its promise unless it puts an empty mbuf in front of a long tail and the
second allocation fails or this mbuf's `m_len` is not zero by chance. -/
theorem m_split_keeps (chain : List Mbuf) (hc : Chain chain)
    (hhdr : ∀ h ∈ chain.head?, h.flags.pkthdr = true → h.pkthdr.len = (bytes chain).length) (len0 : Int) (h₀ : 0 ≤ len0)
    (hlt : len0 < (bytes chain).length) (alloc : Alloc) :
    ∃ r, (∀ fuel, 2 ≤ fuel → m_split fuel alloc chain len0 = some r) ∧
      (Keeps alloc chain len0 r ↔
        (LongTail chain len0 → ∀ raw, alloc 0 = some raw → raw.len = 0 ∧ alloc 1 ≠ none)) := by
  obtain ⟨front, m, rest, len, hseek, hcut⟩ := seek_cut hc h₀ hlt
  obtain ⟨m0, ms, rfl⟩ : ∃ m0 ms, chain = m0 :: ms := by
    cases chain with
    | nil => exact absurd hcut.eq (by simp)
    | cons m0 ms => exact ⟨m0, ms, rfl⟩
  suffices h : ∃ r, m_split 2 alloc (m0 :: ms) len0 = some r ∧ (Keeps alloc (m0 :: ms) len0 r ↔
      (LongTail (m0 :: ms) len0 → ∀ raw, alloc 0 = some raw → raw.len = 0 ∧ alloc 1 ≠ none)) by
    obtain ⟨r, hr, hiff⟩ := h
    exact ⟨r, fun fuel hf => m_split_mono hf hr, hiff⟩
  by_cases hp : m0.flags.pkthdr = true
  · have hlen := hhdr m0 rfl hp
    cases ha : alloc 0 with
    | none =>
      refine ⟨(m0 :: ms, []), ?_, iff_of_true (.inr ⟨rfl, .inl ha⟩) fun _ raw hraw => by cases hraw⟩
      simp only [m_split, hseek, if_pos hp, ha]
    | some raw =>
      by_cases hlong : m.flags.ext = false ∧ m.len - len > MHLEN
      · have htail : LongTail (m0 :: ms) len0 := ⟨⟨m0, rfl, hp⟩, front, m, rest, len, hcut, hlong⟩
        have hplain := long_tail_front hc hcut hlong.1 hlong.2
        obtain ⟨front, rfl⟩ : ∃ front₁, front = m0 :: front₁ := by
          cases front with
          | nil =>
            obtain ⟨rfl, -⟩ := List.cons.inj hcut.eq
            rw [hp] at hplain
            cases hplain
          | cons f0 front =>
            obtain ⟨rfl, -⟩ := List.cons.inj hcut.eq
            exact ⟨front, rfl⟩
        obtain ⟨r, hr, hiff⟩ := @split_long m front rest (m0 :: ms) len len0 alloc m0 raw _ hc hcut hlen hlt hp hlong.1 hlong.2
          rfl 0
        refine ⟨r, ?_, hiff.trans ⟨fun h _ raw' hraw => ?_, fun h => h htail raw rfl⟩⟩
        · simp only [m_split, hseek, if_pos hp, ha, setLead, hlong.1, Bool.false_eq_true, if_false, if_pos hlong.2] at hr ⊢
          exact hr
        · obtain rfl := Option.some.inj hraw
          exact h
      · have hroom : m.flags.ext = false → m.len - len ≤ MHLEN := fun he => by
          by_contra hgt
          exact hlong ⟨he, by omega⟩
        have hflags : (setLead len0 front m).2.flags = m.flags := by cases front <;> rfl
        have hno : ¬LongTail (m0 :: ms) len0 := by
          rintro ⟨-, front', m', rest', len', hcut', he', hgt'⟩
          obtain ⟨rfl, rfl⟩ := hcut.unique hc hcut'
          exact hlong ⟨he', hgt'⟩
        let n : Mbuf := { MGETHDR raw m0.type with pkthdr := ⟨m0.pkthdr.rcvif, m0.pkthdr.len - len0⟩ }
        by_cases he : m.flags.ext = true
        · have hs := @split_header m m0 front rest (m0 :: ms) len len0 hc hcut rfl hlen hroom (setLead len0 front m).2 n
            (setLead len0 front m).1 rfl rfl rfl rfl fun hf => by rw [he] at hf; cases hf
          refine ⟨_, ?_, iff_of_true (.inl ⟨hs.ne_nil h₀ hlt, hs⟩) fun h => absurd h hno⟩
          simp only [m_split, hseek, if_pos hp, ha, hflags, if_pos he]
          rfl
        · have hs := @split_header m m0 front rest (m0 :: ms) len len0 hc hcut rfl hlen hroom (setLead len0 front m).2
            (MH_ALIGN n (m.len - len)) (setLead len0 front m).1 rfl rfl rfl rfl fun _ => rfl
          refine ⟨_, ?_, iff_of_true (.inl ⟨hs.ne_nil h₀ hlt, hs⟩) fun h => absurd h hno⟩
          have hle : ¬(m.len - len > MHLEN) := fun hgt => hlong ⟨by simpa using he, hgt⟩
          simp only [m_split, hseek, if_pos hp, ha, hflags, if_neg he, if_neg hle]
          rfl
  · have hno : ∀ h ∈ (m0 :: ms).head?, ¬h.flags.pkthdr = true := by simpa using hp
    obtain ⟨r, hr, hres⟩ := @split_plain m front rest (m0 :: ms) len len0 alloc hc hcut hseek hno 1
    refine ⟨r, hr, iff_of_true ?_ fun hl => ?_⟩
    · split at hres
      · rename_i hfail
        exact .inr ⟨hres, .inl hfail.2⟩
      · exact .inl ⟨hres.ne_nil h₀ hlt, hres⟩
    · obtain ⟨⟨h, hh, hpk⟩, -⟩ := hl
      exact absurd hpk (hno h hh)

/-- Zeros. -/
def zeroMbuf (pkthdr : Bool) (hdrLen data len : Int) : Mbuf :=
  ⟨⟨false, pkthdr, false, false, false⟩, 1, ⟨0, hdrLen⟩, fun _ => 0, ⟨0, fun _ => 0, 0⟩, data, len⟩

/-- A header mbuf of one byte and a plain mbuf that is full. -/
def longChain : List Mbuf := [zeroMbuf true 109 8 1, zeroMbuf false 0 0 108]

theorem longChain_ok : Chain longChain := by
  have h₁ : (zeroMbuf true 109 8 1).Ok := ⟨by decide, by decide, by decide⟩
  have h₂ : (zeroMbuf false 0 0 108).Ok := ⟨by decide, by decide, by decide⟩
  simpa [Chain, longChain] using ⟨h₁, h₂⟩

/-- With mbufs whose `m_len` is zero the chain is split in the middle of the full mbuf. -/
theorem m_split_keeps_long :
    ∃ r, m_split 2 (fun _ => some (zeroMbuf false 0 0 0)) longChain 2 = some r ∧
      Keeps (fun _ => some (zeroMbuf false 0 0 0)) longChain 2 r := by
  obtain ⟨r, hr, hiff⟩ := m_split_keeps longChain longChain_ok (by decide +kernel) 2 (by decide) (by decide +kernel)
    fun _ => some (zeroMbuf false 0 0 0)
  refine ⟨r, hr 2 (Nat.le_refl 2), hiff.2 fun _ raw hraw => ⟨?_, by simp⟩⟩
  rw [← Option.some.inj hraw]
  rfl

/-- If the second allocation fails, the header keeps the length two of the split
that has not happened; if it succeeds, 37 bytes are in front of the rest for an
mbuf whose memory says so. -/
theorem m_split_loses :
    Chain longChain ∧ (bytes longChain).length = 109 ∧
      (∃ r, m_split 2 (fun i => if i = 0 then some (zeroMbuf false 0 0 0) else none) longChain 2 = some r ∧
        r.2 = [] ∧ (r.1.head?.map (·.pkthdr.len)) = some 2 ∧
        ¬Keeps (fun i => if i = 0 then some (zeroMbuf false 0 0 0) else none) longChain 2 r) ∧
      ∃ r, m_split 2 (fun _ => some (zeroMbuf false 0 0 37)) longChain 2 = some r ∧ (bytes r.2).length = 37 + 107 ∧
        ¬Keeps (fun _ => some (zeroMbuf false 0 0 37)) longChain 2 r := by
  refine ⟨longChain_ok, by decide +kernel, ⟨_, rfl, rfl, rfl, ?_⟩, _, rfl, by decide +kernel, ?_⟩
  · rintro (⟨hne, -⟩ | ⟨hsame, -⟩)
    · exact hne rfl
    · have hhead := congrArg (fun r => r.1.head?.map (·.pkthdr.len)) hsame
      exact absurd hhead (by decide)
  · rintro (⟨-, hs⟩ | ⟨hsame, -⟩)
    · exact absurd (congrArg List.length hs.back) (by decide +kernel)
    · exact absurd (congrArg (fun r => r.2.length) hsame) (by decide)

end Promise

end BsdKernel.Mbufs
