import BsdKernel.Kern.Mbuf
/-!
# Copying a part of a chain

`m_copym` of `kern/uipc_mbuf.c`: plain mbufs are copied, clusters are shared. A
length of `M_COPYALL` stands for all that is left, and the loop asks its counter
for this value, not the argument: a larger length that comes down to it at the end
of an mbuf is taken for it (`Overruns`). `m_copym_spec` says that in all other
cases the copy has the bytes that are asked for.
-/

namespace BsdKernel.Mbufs

open BsdKernel.Lib

def M_COPYALL : Int := 1000000000

/-- What ends a call without a copy: a panic, or the label `nospace`. -/
inductive Stop
  | panic
  | nospace
  deriving DecidableEq, Repr

/-- The first loop of `m_copym`: `off`, and the chain from `m` on. -/
def skip (off : Int) : List Mbuf → Except Stop (Int × List Mbuf)
  | [] => if off > 0 then .error .panic else .ok (off, [])
  | m :: ms => if off > 0 ∧ ¬off < m.len then skip (off - m.len) ms else .ok (off, m :: ms)

/-- `M_COPY_PKTHDR` and the length of the copy. -/
def copyHdr (n m : Mbuf) (off0 len : Int) : Mbuf :=
  let n := M_COPY_PKTHDR n m
  { n with pkthdr := { n.pkthdr with len := if len = M_COPYALL then n.pkthdr.len - off0 else len } }

/-- The mbuf that stands for a part of `m` in the copy. -/
def copyPart (n m : Mbuf) (off len : Int) : Mbuf :=
  let n : Mbuf := { n with len := min len (m.len - off) }
  if m.flags.ext then { n with data := m.data + off, ext := m.ext, flags := { n.flags with ext := true } }
  else n.write 0 m off n.len

/-- The second loop, with the allocations from `i` on. -/
def copyLoop (alloc : Alloc) (off0 : Int) : List Mbuf → Nat → Bool → Int → Int → Except Stop (List Mbuf)
  | [], _, _, _, len => if len > 0 ∧ len ≠ M_COPYALL then .error .panic else .ok []
  | m :: ms, i, copyhdr, off, len =>
    if len > 0 then
      match alloc i with
      | none => .error .nospace
      | some raw => do
        let n := if copyhdr then copyHdr (MGET raw m.type) m off0 len else MGET raw m.type
        let n := copyPart n m off len
        let ns ← copyLoop alloc off0 ms (i + 1) false 0 (if len ≠ M_COPYALL then len - n.len else len)
        .ok (n :: ns)
    else .ok []

/-- `m_copym`; its null pointer is `[]` for a copy of no bytes and else `nospace`. -/
def m_copym (alloc : Alloc) (chain : List Mbuf) (off0 len : Int) : Except Stop (List Mbuf) :=
  if off0 < 0 ∨ len < 0 then .error .panic
  else do
    let copyhdr := off0 == 0 && chain.head?.any (·.flags.pkthdr)
    let (off, ms) ← skip off0 chain
    copyLoop alloc off0 ms 0 copyhdr off len

/-! ## What is asked for -/

/-- The bytes of a chain from `off` on, `len` of them. -/
def wanted (chain : List Mbuf) (off len : Int) : List Byte :=
  if len = M_COPYALL then (bytes chain).drop off.toNat else ((bytes chain).drop off.toNat).take len.toNat

/-- The first bytes that are copied end with an mbuf, and as many as `M_COPYALL`
would remain. -/
def Overruns (chain : List Mbuf) (off len : Int) : Prop :=
  M_COPYALL < len ∧ ∃ front rest, chain = front ++ rest ∧ ((bytes front).length : Int) - off = len - M_COPYALL

section Copy
variable {m n : Mbuf} {ms chain : List Mbuf} {off off0 len : Int} {alloc : Alloc}

theorem skip_spec (h : Chain chain) (h₀ : 0 ≤ off) (hle : off ≤ (bytes chain).length) :
    ∃ off' front ms, skip off chain = .ok (off', ms) ∧ chain = front ++ ms ∧ (bytes front).length + off' = off ∧
      0 ≤ off' ∧ (∀ m ∈ ms.head?, off' ≤ m.len) ∧ (ms = [] → off' = 0) ∧ (off = 0 → front = []) := by
  induction chain generalizing off with
  | nil =>
    have hz : off = 0 := by simp at hle; omega
    exact ⟨off, [], [], by rw [skip, if_neg (by omega)], rfl, by simp, h₀, by simp, fun _ => hz, fun _ => rfl⟩
  | cons m ms ih =>
    obtain ⟨hm, hms⟩ := chain_cons.1 h
    have hlen := hm.length
    rw [skip]
    by_cases hgo : off > 0 ∧ ¬off < m.len
    · rw [bytes_cons, List.length_append] at hle
      obtain ⟨off', front, ms', hs, hc, hsum, h₁, h₂, h₃, -⟩ := @ih (off - m.len) hms (by omega) (by omega)
      refine ⟨off', m :: front, ms', by rw [if_pos hgo, hs], by rw [hc]; rfl, ?_, h₁, h₂, h₃, fun h => by omega⟩
      rw [bytes_cons, List.length_append, Int.natCast_add]
      omega
    · refine ⟨off, [], m :: ms, if_neg hgo, rfl, by simp, h₀, fun x hx => ?_, by simp, fun _ => rfl⟩
      obtain rfl : m = x := by simpa using hx
      omega

/-- A part of `m` that starts inside of it. -/
theorem copyPart_spec (hm : m.Ok) (h₀ : 0 ≤ off) (hle : off ≤ m.len) (hlen : 0 ≤ len) (hext : n.flags.ext = false)
    (hlow : n.low ≤ n.data) (hroom : m.flags.ext = false → n.data + m.len ≤ MLEN) :
    (copyPart n m off len).Ok ∧ (copyPart n m off len).len = min len (m.len - off) ∧
      (copyPart n m off len).bytes = (m.bytes.drop off.toNat).take (min len (m.len - off)).toNat ∧
      (copyPart n m off len).flags.pkthdr = n.flags.pkthdr ∧ (copyPart n m off len).pkthdr = n.pkthdr := by
  have hml := hm.low
  have hmh := hm.high
  unfold copyPart
  by_cases he : m.flags.ext = true
  · rw [if_pos he]
    refine ⟨⟨by simp only; omega, ?_, ?_⟩, rfl, ?_, rfl, rfl⟩
    · simp only [Mbuf.low, he, if_true] at hml ⊢
      omega
    · simp only [Mbuf.high, he, if_true] at hmh ⊢
      omega
    · rw [← part_bytes h₀ (by omega) (by omega)]
      simp only [Mbuf.bytes, Mbuf.mem, he, if_true]
  · rw [if_neg he]
    have hr := hroom (by simpa using he)
    refine ⟨⟨by simp only [Mbuf.write]; omega, hlow, ?_⟩, rfl, ?_, rfl, rfl⟩
    · simp only [Mbuf.high, Mbuf.write, hext, Bool.false_eq_true, if_false]
      omega
    · rw [← part_bytes h₀ (by omega) (by omega)]
      simp only [Mbuf.bytes, Mbuf.write, Mbuf.mem, hext, Bool.false_eq_true, if_false, Int.add_zero]
      exact copy_bytes _ _ _ _ _

/-- The mbuf that a part of `m` is copied to has room for it. -/
theorem fresh_spec (raw : Mbuf) (copyhdr : Bool) (hm : m.Ok) (hh : copyhdr = true → m.flags.pkthdr = true)
    (hn : n = if copyhdr then copyHdr (MGET raw m.type) m off0 len else MGET raw m.type) :
    n.flags.ext = false ∧ n.low ≤ n.data ∧ (m.flags.ext = false → n.data + m.len ≤ MLEN) := by
  have hlow := hm.low
  have hhigh := hm.high
  cases copyhdr with
  | true =>
    have hp := hh rfl
    have hext : n.flags.ext = false := by rw [hn]; rfl
    have hpk : n.flags.pkthdr = true := by rw [hn]; exact hp
    have hdata : n.data = pktdat := by rw [hn]; rfl
    refine ⟨hext, by simp [Mbuf.low, hext, hpk, hdata], fun he => ?_⟩
    simp only [Mbuf.low, Mbuf.high, he, hp, Bool.false_eq_true, if_false, if_true] at hlow hhigh
    omega
  | false =>
    have hext : n.flags.ext = false := by rw [hn]; rfl
    have hpk : n.flags.pkthdr = false := by rw [hn]; rfl
    have hdata : n.data = 0 := by rw [hn]; rfl
    refine ⟨hext, by simp [Mbuf.low, hext, hpk, hdata], fun he => ?_⟩
    have hpos : 0 ≤ m.low := by
      simp only [Mbuf.low, he, Bool.false_eq_true, if_false]
      split <;> decide
    simp only [Mbuf.high, he, Bool.false_eq_true, if_false] at hhigh
    omega

/-- In the rest of the loop the counter comes down to `M_COPYALL`. -/
def Flips (ms : List Mbuf) (off len : Int) : Prop :=
  ∃ front rest, ms = front ++ rest ∧ front ≠ [] ∧ ((bytes front).length : Int) - off = len - M_COPYALL

theorem flips_cons (hm : m.Ok) :
    Flips (m :: ms) off len ↔ len - (m.len - off) = M_COPYALL ∨ Flips ms 0 (len - (m.len - off)) := by
  have hlen := hm.length
  constructor
  · rintro ⟨front, rest, he, hne, hsum⟩
    cases front with
    | nil => exact absurd rfl hne
    | cons x front =>
      obtain ⟨rfl, rfl⟩ := List.cons.inj he
      rw [bytes_cons, List.length_append, Int.natCast_add, hlen] at hsum
      by_cases hf : front = []
      · subst hf
        rw [bytes_nil, List.length_nil] at hsum
        exact .inl (by omega)
      · exact .inr ⟨front, rest, rfl, hf, by omega⟩
  · rintro (h | ⟨front, rest, rfl, -, hsum⟩)
    · exact ⟨[m], ms, rfl, by simp, by simp only [bytes_cons, bytes_nil, List.append_nil]; omega⟩
    · refine ⟨m :: front, rest, rfl, by simp, ?_⟩
      rw [bytes_cons, List.length_append, Int.natCast_add, hlen]
      omega

theorem not_flips (h : len ≤ 0) (hoff : off ≤ MCLBYTES) (ms : List Mbuf) : ¬Flips ms off len := by
  rintro ⟨front, rest, -, -, hsum⟩
  unfold M_COPYALL at hsum
  unfold MCLBYTES at hoff
  omega

/-- What the loop copies: the bytes that are wanted, or all if its counter flips. -/
structure Copied (ms : List Mbuf) (off len : Int) (ns : List Mbuf) : Prop where
  ok : Chain ns
  all : len = M_COPYALL ∨ Flips ms off len → bytes ns = (bytes ms).drop off.toNat
  part : len ≠ M_COPYALL → ¬Flips ms off len → bytes ns = ((bytes ms).drop off.toNat).take len.toNat

theorem len_le_cluster (hm : m.Ok) : m.len ≤ MCLBYTES := by
  have hlow := hm.low
  have hhigh := hm.high
  simp only [Mbuf.low, Mbuf.high, pktdat, MLEN, MHLEN, MCLBYTES] at *
  split at hhigh <;> split at hlow <;> omega

/-- One mbuf and what the rest of the loop copies. -/
theorem Copied.cons {ns : List Mbuf} {part : Mbuf} (hm : m.Ok) (h₀ : 0 ≤ off) (hoff : off ≤ m.len) (hlen : 0 < len)
    (hpart : part.Ok) (hbytes : part.bytes = (m.bytes.drop off.toNat).take (min len (m.len - off)).toNat)
    (hrest : Copied ms 0 (if len ≠ M_COPYALL then len - min len (m.len - off) else len) ns) :
    Copied (m :: ms) off len (part :: ns) := by
  have hml := hm.length
  have hcl := len_le_cluster hm
  have hdrop : (bytes (m :: ms)).drop off.toNat = m.bytes.drop off.toNat ++ bytes ms := by
    rw [bytes_cons, List.drop_append_of_le_length (by omega)]
  have hdl : (m.bytes.drop off.toNat).length = (m.len - off).toNat := by
    rw [List.length_drop]
    omega
  have hwhole : m.len - off ≤ len → part.bytes = m.bytes.drop off.toNat := fun h => by
    rw [hbytes, Int.min_eq_right h]
    exact List.take_of_length_le (Nat.le_of_eq hdl)
  by_cases hall : len = M_COPYALL
  · -- the counter stays at `M_COPYALL`
    have hle : m.len - off ≤ len := by
      unfold M_COPYALL at hall
      unfold MCLBYTES at hcl
      omega
    rw [if_neg (not_not.2 hall)] at hrest
    refine ⟨chain_cons.2 ⟨hpart, hrest.ok⟩, fun _ => ?_, fun hne => absurd hall hne⟩
    rw [hdrop, bytes_cons, hwhole hle, hrest.all (.inl hall)]
    rfl
  · rw [if_pos hall] at hrest
    refine ⟨chain_cons.2 ⟨hpart, hrest.ok⟩, fun h => ?_, fun _ hno => ?_⟩
    · have hf := (flips_cons hm).1 (h.resolve_left hall)
      have hle : m.len - off ≤ len := by
        rcases hf with hf | hf
        · unfold M_COPYALL at hf
          omega
        · by_contra hlt
          exact not_flips (by omega) (by decide) ms hf
      rw [Int.min_eq_right hle] at hrest
      rw [hdrop, bytes_cons, hwhole hle, hrest.all hf]
      rfl
    · by_cases hle : m.len - off ≤ len
      · rw [Int.min_eq_right hle] at hrest
        have hf := not_or.1 fun hf => hno ((flips_cons hm).2 hf)
        have hsplit : len.toNat = (m.bytes.drop off.toNat).length + (len - (m.len - off)).toNat := by
          rw [hdl]
          omega
        rw [hdrop, bytes_cons, hwhole hle, hrest.part hf.1 hf.2, hsplit, List.take_length_add_append]
        rfl
      · have hmin : min len (m.len - off) = len := Int.min_eq_left (by omega)
        rw [hmin, Int.sub_self] at hrest
        rw [hdrop, bytes_cons, hbytes, hmin, hrest.part (by decide) (not_flips (Int.le_refl 0) (by decide) ms),
          List.take_append_of_le_length (by rw [hdl]; omega)]
        simp

/-- The header of the copy: `m_pkthdr.len` is what is asked for. -/
def HdrCopied (m n : Mbuf) (off0 len : Int) : Prop :=
  n.flags.pkthdr = true ∧ n.pkthdr = { m.pkthdr with len := if len = M_COPYALL then m.pkthdr.len - off0 else len }

/-- The second loop: it runs out of mbufs, or the copy has what its counter says. -/
theorem copyLoop_spec (i : Nat) (copyhdr : Bool) (h : Chain ms) (h₀ : 0 ≤ off) (hoff : ∀ m ∈ ms.head?, off ≤ m.len)
    (hnil : ms = [] → off = 0) (hh : copyhdr = true → ∀ m ∈ ms.head?, m.flags.pkthdr = true) (hlen : 0 ≤ len)
    (hle : len = M_COPYALL ∨ off + len ≤ (bytes ms).length) :
    (copyLoop alloc off0 ms i copyhdr off len = .error .nospace ∧ ∃ k, alloc k = none) ∨
      ∃ ns, copyLoop alloc off0 ms i copyhdr off len = .ok ns ∧ Copied ms off len ns ∧
        (0 < len → copyhdr = true → ∀ m ∈ ms.head?, ∃ n ∈ ns.head?, HdrCopied m n off0 len) := by
  induction ms generalizing i copyhdr off len with
  | nil =>
    have hoff₀ := hnil rfl
    subst hoff₀
    refine .inr ⟨[], ?_, ⟨h, fun _ => rfl, fun _ _ => by simp⟩, fun _ _ m hm => by cases hm⟩
    rw [copyLoop, if_neg]
    rintro ⟨hpos, hne⟩
    rw [bytes_nil, List.length_nil] at hle
    omega
  | cons m ms ih =>
    obtain ⟨hm, hms⟩ := chain_cons.1 h
    have hml := hm.length
    have hcl := len_le_cluster hm
    have hoffm := hoff m rfl
    rw [copyLoop]
    by_cases hpos : len > 0
    · rw [if_pos hpos]
      cases ha : alloc i with
      | none => exact .inl ⟨rfl, i, ha⟩
      | some raw =>
        simp only
        generalize hn : (if copyhdr = true then copyHdr (MGET raw m.type) m off0 len else MGET raw m.type) = n
        obtain ⟨hext, hlow, hroom⟩ := fresh_spec raw copyhdr hm (fun hc => hh hc m rfl) hn.symm
        obtain ⟨hok, hnl, hbytes, hpk, hphdr⟩ := copyPart_spec hm h₀ hoffm hlen hext hlow hroom
        rw [hnl]
        have hle' : (if len ≠ M_COPYALL then len - min len (m.len - off) else len) = M_COPYALL ∨
            0 + (if len ≠ M_COPYALL then len - min len (m.len - off) else len) ≤ (bytes ms).length := by
          by_cases hall : len = M_COPYALL
          · exact .inl (by rw [if_neg (not_not.2 hall)]; exact hall)
          · rw [if_pos hall]
            rw [bytes_cons, List.length_append, Int.natCast_add] at hle
            right
            omega
        rcases ih (i + 1) false hms (Int.le_refl 0) (fun x hx => (hms x (List.mem_of_mem_head? hx)).len) (fun _ => rfl)
            (fun hc => by cases hc) (by split <;> omega) hle' with ⟨he, hnone⟩ | ⟨ns, hns, hcopied, -⟩
        · exact .inl ⟨by rw [he]; rfl, hnone⟩
        · refine .inr ⟨copyPart n m off len :: ns, by rw [hns]; rfl, hcopied.cons hm h₀ hoffm hpos hok hbytes, ?_⟩
          intro _ hcopy x hx
          obtain rfl : m = x := by simpa using hx
          rw [if_pos hcopy] at hn
          refine ⟨_, rfl, hpk.trans ?_, hphdr.trans ?_⟩
          · rw [← hn]
            exact hh hcopy m rfl
          · rw [← hn]
            rfl
    · have hz : len = 0 := by omega
      subst hz
      have hno : ¬Flips (m :: ms) off 0 := not_flips (Int.le_refl 0) (Int.le_trans hoffm hcl) (m :: ms)
      have hall : (0 : Int) ≠ M_COPYALL := by decide
      have hchain : Chain [] := fun _ hx => absurd hx List.not_mem_nil
      refine .inr ⟨[], if_neg hpos, ⟨hchain, fun hf => absurd hf (not_or.2 ⟨hall, hno⟩), fun _ _ => ?_⟩, fun hp => absurd hp hpos⟩
      simp

/-- A copy of the bytes asked for. From the first byte on it has the packet header,
if it has an mbuf at all, with its own length. -/
structure CopyOf (chain : List Mbuf) (off len : Int) (r : List Mbuf) : Prop where
  bytes : bytes r = wanted chain off len
  ok : Chain r
  header : off = 0 → 0 < len → ∀ m ∈ chain.head?, m.flags.pkthdr = true →
    ∃ n ∈ r.head?, n.flags.pkthdr = true ∧ n.pkthdr = { m.pkthdr with len := (Mbufs.bytes r).length }

/-- A counter that flips has overrun, seen from the mbuf at which the copy starts. -/
theorem overruns_iff {front : List Mbuf} (hc : Chain ms) (hchain : chain = front ++ ms)
    (hsum : (bytes front).length + off = off0) (h₀ : 0 ≤ off) (hoff : ∀ m ∈ ms.head?, off ≤ m.len) (hne : len ≠ M_COPYALL) :
    Overruns chain off0 len ↔ Flips ms off len := by
  constructor
  · rintro ⟨hbig, front', rest, he, hlen⟩
    have hlong : (bytes front).length < (bytes front').length := by omega
    rcases List.append_eq_append_iff.1 (hchain.symm.trans he) with ⟨part, rfl, hms⟩ | ⟨part, rfl, hms⟩
    · rw [bytes_append, List.length_append] at hlong hlen
      refine ⟨part, rest, hms, ?_, by omega⟩
      rintro rfl
      simp at hlong
    · rw [bytes_append, List.length_append] at hlong
      omega
  · rintro ⟨part, rest, rfl, hpart, hlen⟩
    obtain ⟨m, part, rfl⟩ := List.exists_cons_of_ne_nil hpart
    have hm := (hc m (by simp)).length
    have hfirst := hoff m rfl
    refine ⟨?_, front ++ m :: part, rest, by rw [hchain, List.append_assoc], ?_⟩
    · rw [bytes_cons, List.length_append] at hlen
      omega
    · rw [bytes_append, List.length_append]
      omega

/-- `m_copym` runs out of mbufs, or returns a copy of what is asked for; unless as
many bytes as `M_COPYALL` are left at the end of an mbuf, when it copies to the end
of the chain. -/
theorem m_copym_spec (chain : List Mbuf) (hc : Chain chain)
    (hhdr : ∀ h ∈ chain.head?, h.flags.pkthdr = true → h.pkthdr.len = (bytes chain).length) (off : Int) (h₀ : 0 ≤ off)
    (len : Int) (hlen : 0 ≤ len) (hle : len = M_COPYALL ∧ off ≤ (bytes chain).length ∨ off + len ≤ (bytes chain).length)
    (alloc : Alloc) :
    (m_copym alloc chain off len = .error .nospace ∧ ∃ k, alloc k = none) ∨
      ∃ r, m_copym alloc chain off len = .ok r ∧
        (CopyOf chain off len r ↔ Overruns chain off len → off + len = (bytes chain).length) := by
  obtain ⟨off', front, ms, hskip, hchain, hsum, hoff₀, hoff, hnil, hfirst⟩ := skip_spec hc h₀ (by omega)
  have hms : Chain ms := (chain_append.1 (hchain ▸ hc)).2
  have htotal : (bytes chain).length = (bytes front).length + (bytes ms).length := by
    rw [hchain, bytes_append, List.length_append]
  have hdrop : (bytes chain).drop off.toNat = (bytes ms).drop off'.toNat := by
    have hsplit : off.toNat = (bytes front).length + off'.toNat := by omega
    rw [hchain, bytes_append, hsplit, List.drop_length_add_append]
  have hcopyhdr : (off == 0 && chain.head?.any (·.flags.pkthdr)) = true → ∀ m ∈ ms.head?, m.flags.pkthdr = true := by
    intro h m hm
    rw [Bool.and_eq_true, beq_iff_eq] at h
    rw [hchain, hfirst h.1, List.nil_append, Option.mem_def.1 hm] at h
    simpa using h.2
  have hrun : m_copym alloc chain off len =
      copyLoop alloc off ms 0 (off == 0 && chain.head?.any (·.flags.pkthdr)) off' len := by
    rw [m_copym, if_neg (by omega), hskip]
    rfl
  rw [hrun]
  rcases @copyLoop_spec ms off' off len alloc 0 (off == 0 && chain.head?.any (·.flags.pkthdr)) hms hoff₀ hoff hnil
      hcopyhdr hlen (by omega) with hfail | ⟨r, hr, hcopied, hheader⟩
  · exact .inl hfail
  · have hall : len = M_COPYALL ∨ Overruns chain off len → bytes r = (bytes chain).drop off.toNat := fun h => by
      rw [hdrop]
      refine hcopied.all ?_
      by_cases hne : len = M_COPYALL
      · exact .inl hne
      · exact .inr ((overruns_iff hms hchain hsum hoff₀ hoff hne).1 (h.resolve_left hne))
    refine .inr ⟨r, hr, fun hcopy hover => ?_, fun hexact => ?_⟩
    · have hne : len ≠ M_COPYALL := Int.ne_of_gt hover.1
      have hsame := (hall (.inr hover)).symm.trans hcopy.bytes
      rw [wanted, if_neg hne] at hsame
      have hl := congrArg List.length hsame
      rw [List.length_take, List.length_drop] at hl
      omega
    · have hbytes : bytes r = wanted chain off len := by
        rw [wanted]
        by_cases hne : len = M_COPYALL
        · rw [if_pos hne, hall (.inl hne)]
        · rw [if_neg hne]
          by_cases hover : Overruns chain off len
          · have hend := hexact hover
            rw [hall (.inr hover), List.take_of_length_le (by rw [List.length_drop]; omega)]
          · rw [hdrop]
            exact hcopied.part hne fun hf => hover ((overruns_iff hms hchain hsum hoff₀ hoff hne).2 hf)
      refine ⟨hbytes, hcopied.ok, fun hz hpos m hm hp => ?_⟩
      have hhead : ms.head? = some m := by
        rw [hchain, hfirst hz, List.nil_append] at hm
        exact hm
      have hflag : (off == 0 && chain.head?.any (·.flags.pkthdr)) = true := by
        rw [Option.mem_def.1 hm, hz]
        simpa using hp
      obtain ⟨n, hn, hnp, hnh⟩ := hheader hpos hflag m hhead
      refine ⟨n, hn, hnp, hnh.trans (congrArg (fun l => { m.pkthdr with len := l }) ?_)⟩
      have hl := congrArg List.length hbytes
      rw [wanted] at hl
      by_cases hne : len = M_COPYALL
      · rw [if_pos hne, List.length_drop] at hl
        rw [if_pos hne, hhdr m hm hp]
        omega
      · rw [if_neg hne, List.length_take, List.length_drop] at hl
        rw [if_neg hne]
        omega

end Copy

end BsdKernel.Mbufs
