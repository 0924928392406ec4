import BsdKernel.Kern.Mbuf
/-!
# Moving bytes to the front

`m_pullup` and `m_cat` of `kern/uipc_mbuf.c`, which copy bytes from one mbuf to the
end of another. `m_pullup_spec` says when `m_pullup` has a result and what it
is, `m_cat_spec` that `m_cat` concatenates.
-/

namespace BsdKernel.Mbufs

open BsdKernel.Lib

variable {r : Int × Mbuf × List Mbuf}

/-! ## m_pullup -/

/-- The loop of `m_pullup`, for at most `fuel` rounds: `len`, `m` and the chain
`n` after it. -/
def pullLoop (max_protohdr : Int) : Nat → Int → Mbuf → Int → List Mbuf → Option (Int × Mbuf × List Mbuf)
  | 0, _, _, _, _ => none
  | _ + 1, len, m, _, [] => some (len, m, [])
  | fuel + 1, len, m, space, n :: ns =>
    let count : Int := min (min (max len max_protohdr) space) n.len
    let m : Mbuf := { m.write m.len n 0 count with len := m.len + count }
    let n : Mbuf := { n with len := n.len - count }
    let ns := if n.len ≠ 0 then { n with data := n.data + count } :: ns else ns
    if len - count > 0 ∧ ns.isEmpty = false then pullLoop max_protohdr fuel (len - count) m (space - count) ns
    else some (len - count, m, ns)

/-- The end of `m_pullup`; what is left is freed if there is not enough. -/
def pulled : Int × Mbuf × List Mbuf → List Mbuf
  | (len, m, ns) => if len > 0 then [] else m :: ns

/-- The first mbuf has no cluster, has room for `len` bytes, and is not the last. -/
def fitsFirst (n : Mbuf) (ns : List Mbuf) (len : Int) : Prop :=
  n.flags.ext = false ∧ n.data + len < MLEN ∧ ns.isEmpty = false

instance (n : Mbuf) (ns : List Mbuf) (len : Int) : Decidable (fitsFirst n ns len) := by
  unfold fitsFirst
  infer_instance

/-- The new first mbuf of `m_pullup`, and `n` without its packet header. -/
def newFirst (raw n : Mbuf) : Mbuf × Mbuf :=
  let m := { MGET raw n.type with len := 0 }
  if n.flags.pkthdr then (M_COPY_PKTHDR m n, { n with flags := { n.flags with pkthdr := false } }) else (m, n)

/-- `m_pullup`, for at most `fuel` rounds of its loop. -/
def m_pullup (max_protohdr : Int) (alloc : Alloc) (fuel : Nat) (chain : List Mbuf) (len : Int) : Option (List Mbuf) :=
  match chain with
  | [] => some []
  | n :: ns =>
    if fitsFirst n ns len then
      if n.len ≥ len then some (n :: ns)
      else (pullLoop max_protohdr fuel (len - n.len) n (MLEN - (n.data + n.len)) ns).map pulled
    else if len > MHLEN then some []
    else
      match alloc 0 with
      | none => some []
      | some raw =>
        let (m, n) := newFirst raw n
        (pullLoop max_protohdr fuel len m (MLEN - (m.data + m.len)) (n :: ns)).map pulled

section Pullup
variable {m n : Mbuf} {ns chain : List Mbuf} {len space max_protohdr : Int} {alloc : Alloc}

theorem absorb_spec {count : Int} (hm : m.Ok) (hext : m.flags.ext = false) (h₀ : 0 ≤ count) (hle : count ≤ n.len)
    (hroom : m.data + m.len + count ≤ MLEN) :
    { m.write m.len n 0 count with len := m.len + count }.Ok ∧
      { m.write m.len n 0 count with len := m.len + count }.bytes = m.bytes ++ n.bytes.take count.toNat := by
  have hlen := hm.len
  refine ⟨⟨by simp only; omega, hm.low, ?_⟩, ?_⟩
  · simp only [Mbuf.high, Mbuf.write, hext, Bool.false_eq_true, if_false]
    omega
  · rw [write_bytes hext hlen (Int.le_refl 0) h₀ (by omega)]
    rfl

theorem rest_spec {count : Int} (hn : n.Ok) (h₀ : 0 ≤ count) (hle : count ≤ n.len) :
    ({ n with len := n.len - count, data := n.data + count } : Mbuf).Ok ∧
      ({ n with len := n.len - count, data := n.data + count } : Mbuf).bytes = n.bytes.drop count.toNat := by
  have hlow := hn.low
  have hhigh := hn.high
  refine ⟨⟨by simp only; omega, ?_, ?_⟩, ?_⟩
  · exact Int.le_trans hlow (by simp only; omega)
  · exact Int.le_trans (by simp only; omega) hhigh
  · have hpart := @part_bytes n count (n.len - count) h₀ (by omega) (by omega)
    rw [List.take_of_length_le (by rw [List.length_drop, length_bytes]; omega)] at hpart
    exact hpart

/-- What the loop leaves: the same bytes, as many of them in `m` as it has counted. -/
structure Pulled (m : Mbuf) (ns : List Mbuf) (len : Int) (r : Int × Mbuf × List Mbuf) : Prop where
  bytes : r.2.1.bytes ++ bytes r.2.2 = m.bytes ++ bytes ns
  ok : r.2.1.Ok
  chain : Chain r.2.2
  len : r.2.1.len = m.len + (len - r.1)
  flags : r.2.1.flags = m.flags
  pkthdr : r.2.1.pkthdr = m.pkthdr
  short : 0 < r.1 → r.2.2 = []

theorem pullLoop_spec (hmp : 0 ≤ max_protohdr) (fuel : Nat) (hfuel : ns.length ≤ fuel) (hne : ns ≠ []) (hm : m.Ok)
    (hext : m.flags.ext = false) (hspace : m.data + m.len + space = MLEN) (h₀ : 0 ≤ len) (hle : len ≤ space)
    (hns : Chain ns) : ∃ r, pullLoop max_protohdr fuel len m space ns = some r ∧ Pulled m ns len r := by
  induction fuel generalizing len m space ns with
  | zero =>
    cases ns with
    | nil => exact absurd rfl hne
    | cons _ _ => simp at hfuel
  | succ fuel ih =>
    obtain ⟨n, ns, rfl⟩ := List.exists_cons_of_ne_nil hne
    obtain ⟨hn, hns⟩ := chain_cons.1 hns
    have hnlen := hn.len
    rw [pullLoop]
    simp only
    generalize hcount : min (min (max len max_protohdr) space) n.len = count
    have hc₀ : 0 ≤ count := by omega
    have hcn : count ≤ n.len := by omega
    obtain ⟨hok, hbytes⟩ := absorb_spec hm hext hc₀ hcn (by omega)
    generalize hm' : { m.write m.len n 0 count with len := m.len + count } = m' at hok hbytes ⊢
    have hlen' : m'.len = m.len + count := by rw [← hm']
    have hflags' : m'.flags = m.flags := by rw [← hm']; rfl
    have hpkt' : m'.pkthdr = m.pkthdr := by rw [← hm']; rfl
    have hdata' : m'.data = m.data := by rw [← hm']; rfl
    by_cases hrest : n.len - count ≠ 0
    · -- bytes are left over: there were enough
      obtain ⟨hnok, hnbytes⟩ := rest_spec hn hc₀ hcn
      rw [if_pos hrest, if_neg (by omega)]
      refine ⟨_, rfl, ?_, hok, chain_cons.2 ⟨hnok, hns⟩, by simp only; omega, hflags', hpkt', fun h => by simp only at h; omega⟩
      rw [bytes_cons, hnbytes, hbytes, bytes_cons]
      simp only [List.append_assoc, List.take_append_drop, ← List.append_assoc (n.bytes.take count.toNat)]
    · have hwhole : n.bytes.take count.toNat = n.bytes := List.take_of_length_le (by rw [length_bytes]; omega)
      rw [hwhole] at hbytes
      rw [if_neg hrest]
      by_cases hgo : len - count > 0 ∧ ns.isEmpty = false
      · rw [if_pos hgo]
        obtain ⟨r, hr, hp⟩ : ∃ r, pullLoop max_protohdr fuel (len - count) m' (space - count) ns = some r ∧
            Pulled m' ns (len - count) r :=
          ih (by simpa using hfuel) (by simpa using hgo.2) hok (by rw [hflags']; exact hext) (by omega) (by omega)
            (by omega) hns
        refine ⟨r, hr, ?_, hp.ok, hp.chain, ?_, hp.flags.trans hflags', hp.pkthdr.trans hpkt', hp.short⟩
        · rw [hp.bytes, hbytes, bytes_cons, List.append_assoc]
        · have := hp.len
          omega
      · rw [if_neg hgo]
        refine ⟨_, rfl, ?_, hok, hns, by simp only; omega, hflags', hpkt', fun h => ?_⟩
        · rw [hbytes, bytes_cons, List.append_assoc]
        · by_contra hn'
          exact hgo ⟨h, by simpa using hn'⟩

theorem pullLoop_succ {fuel : Nat} (h : pullLoop max_protohdr fuel len m space ns = some r) :
    pullLoop max_protohdr (fuel + 1) len m space ns = some r := by
  induction fuel generalizing len m space ns with
  | zero => cases h
  | succ fuel ih =>
    cases ns with
    | nil => exact h
    | cons n ns =>
      rw [pullLoop] at h ⊢
      simp only at h ⊢
      generalize (if n.len - min (min (max len max_protohdr) space) n.len ≠ 0 then _ else ns) = ns' at h ⊢
      split at h
      · rename_i hgo
        rw [if_pos hgo]
        exact ih h
      · rename_i hgo
        rw [if_neg hgo]
        exact h

theorem pullLoop_mono {fuel fuel' : Nat} (hle : fuel ≤ fuel') (h : pullLoop max_protohdr fuel len m space ns = some r) :
    pullLoop max_protohdr fuel' len m space ns = some r := by
  induction hle with
  | refl => exact h
  | step _ ih => exact pullLoop_succ ih

/-- The same bytes and packet header, and `len` bytes in a first mbuf without a cluster. -/
structure Contiguous (chain : List Mbuf) (len : Int) (r : List Mbuf) : Prop where
  bytes : bytes r = bytes chain
  ok : Chain r
  first : ∀ n ∈ chain.head?, ∃ m ∈ r.head?, m.flags.ext = false ∧ len ≤ m.len ∧ m.flags.pkthdr = n.flags.pkthdr ∧
    (n.flags.pkthdr = true → m.pkthdr = n.pkthdr)

/-- What `m_pullup` makes of the end of its loop. -/
theorem pulled_spec (hp : Pulled m ns len r) (hm : m.Ok) :
    (pulled r = [] ↔ ((bytes ns).length : Int) < len) ∧
      (pulled r ≠ [] → Chain (pulled r) ∧ bytes (pulled r) = m.bytes ++ bytes ns ∧
        ∃ m' ∈ (pulled r).head?, m'.flags = m.flags ∧ m'.pkthdr = m.pkthdr ∧ m.len + len ≤ m'.len) := by
  obtain ⟨len', m', ns'⟩ := r
  have hbytes := hp.bytes
  have hlen := hp.len
  have hm' := hp.ok.length
  have hml := hm.length
  have htotal := congrArg List.length hbytes
  simp only [List.length_append] at hbytes hlen hm' htotal
  by_cases hshort : 0 < len'
  · -- everything is in `m'`, and it is too little
    have hnil : ns' = [] := hp.short hshort
    have hr : pulled (len', m', ns') = [] := if_pos hshort
    rw [hnil, bytes_nil, List.length_nil] at htotal
    refine ⟨iff_of_true hr (by omega), fun hne => absurd hr hne⟩
  · have hr : pulled (len', m', ns') = m' :: ns' := if_neg hshort
    rw [hr]
    refine ⟨iff_of_false (by simp) (by omega), fun _ => ⟨chain_cons.2 ⟨hp.ok, hp.chain⟩, hbytes, m', rfl, hp.flags, hp.pkthdr, ?_⟩⟩
    omega

/-- A new mbuf is needed. -/
def NeedsNew (chain : List Mbuf) (len : Int) : Prop := ∀ n ns, chain = n :: ns → ¬fitsFirst n ns len

theorem newFirst_spec (raw : Mbuf) (hn : n.Ok) :
    (newFirst raw n).1.Ok ∧ (newFirst raw n).1.bytes = [] ∧ (newFirst raw n).1.flags.ext = false ∧
      (newFirst raw n).1.flags.pkthdr = n.flags.pkthdr ∧
      (n.flags.pkthdr = true → (newFirst raw n).1.pkthdr = n.pkthdr) ∧
      (newFirst raw n).1.len = 0 ∧ MHLEN ≤ MLEN - (newFirst raw n).1.data ∧
      (newFirst raw n).2.Ok ∧ (newFirst raw n).2.bytes = n.bytes := by
  unfold newFirst
  by_cases hp : n.flags.pkthdr = true
  · rw [if_pos hp]
    have hlow : ({ n with flags := { n.flags with pkthdr := false } } : Mbuf).low ≤ n.low := by
      simp only [Mbuf.low, hp, if_true, Bool.false_eq_true, if_false]
      split
      · exact Int.le_refl 0
      · decide
    refine ⟨⟨Int.le_refl 0, ?_, ?_⟩, rfl, rfl, rfl, fun _ => rfl, rfl, Int.le_refl _,
      ⟨hn.len, Int.le_trans hlow hn.low, hn.high⟩, rfl⟩
    · simp [Mbuf.low, M_COPY_PKTHDR, hp]
    · simp [Mbuf.high, M_COPY_PKTHDR, pktdat, MLEN, MHLEN]
  · rw [if_neg hp]
    have hp' : n.flags.pkthdr = false := by simpa using hp
    exact ⟨⟨Int.le_refl 0, by simp [Mbuf.low, MGET], by simp [Mbuf.high, MGET, MLEN]⟩, rfl, rfl, hp'.symm,
      fun h => absurd h hp, rfl, by simp [MGET, MHLEN, MLEN], hn, rfl⟩

/-- `m_pullup` comes back within a round for each mbuf. It returns `NULL` if there
are not `len` bytes, or if it needs a new mbuf, and `len` is too large for it or
there is none; else a chain with the same bytes, `len` of them in its first mbuf. -/
theorem m_pullup_spec (chain : List Mbuf) (hc : Chain chain) (hne : chain ≠ []) (len : Int) (h₀ : 0 ≤ len)
    (max_protohdr : Int) (hmp : 0 ≤ max_protohdr) (alloc : Alloc) :
    ∃ r, (∀ fuel, chain.length ≤ fuel → m_pullup max_protohdr alloc fuel chain len = some r) ∧
      (r = [] ↔ ((bytes chain).length : Int) < len ∨ (NeedsNew chain len ∧ (MHLEN < len ∨ alloc 0 = none))) ∧
      (r ≠ [] → Contiguous chain len r) := by
  obtain ⟨n, ns, rfl⟩ := List.exists_cons_of_ne_nil hne
  obtain ⟨hn, hns⟩ := chain_cons.1 hc
  have hnl := hn.length
  by_cases hfit : fitsFirst n ns len
  · have hold : ¬NeedsNew (n :: ns) len := fun h => h n ns rfl hfit
    obtain ⟨hext, hroom, hnext⟩ := hfit
    by_cases hge : n.len ≥ len
    · refine ⟨n :: ns, fun fuel _ => ?_, iff_of_false (by simp) ?_, fun _ => ⟨rfl, hc, fun m hm => ?_⟩⟩
      · rw [m_pullup]
        simp only
        rw [if_pos ⟨hext, hroom, hnext⟩, if_pos hge]
      · rw [bytes_cons, List.length_append]
        rintro (hlt | ⟨hnew, -⟩)
        · omega
        · exact hold hnew
      · obtain rfl : n = m := by simpa using hm
        exact ⟨n, rfl, hext, hge, rfl, fun _ => rfl⟩
    · obtain ⟨r, hr, hp⟩ := @pullLoop_spec n ns (len - n.len) (MLEN - (n.data + n.len)) max_protohdr hmp ns.length
        (Nat.le_refl _) (by simpa using hnext) hn hext (by omega) (by omega) (by omega) hns
      obtain ⟨hnull, hsome⟩ := pulled_spec hp hn
      refine ⟨pulled r, fun fuel hf => ?_, hnull.trans ⟨fun h => .inl ?_, fun h => ?_⟩, fun h => ?_⟩
      · rw [m_pullup]
        simp only
        rw [if_pos ⟨hext, hroom, hnext⟩, if_neg hge, pullLoop_mono (by simp only [List.length_cons] at hf; omega) hr]
        rfl
      · rw [bytes_cons, List.length_append]
        omega
      · rcases h with hlt | ⟨hnew, -⟩
        · rw [bytes_cons, List.length_append] at hlt
          omega
        · exact absurd hnew hold
      · obtain ⟨hok, hbytes, m', hm', hflags, hpkt, hlen⟩ := hsome h
        refine ⟨hbytes, hok, fun m hm => ?_⟩
        obtain rfl : n = m := by simpa using hm
        exact ⟨m', hm', by rw [hflags]; exact hext, by omega, by rw [hflags], fun _ => hpkt⟩
  · have hnew : NeedsNew (n :: ns) len := fun n' ns' h => by
      obtain ⟨rfl, rfl⟩ := List.cons.inj h
      exact hfit
    by_cases hbig : len > MHLEN
    · refine ⟨[], fun fuel _ => ?_, iff_of_true rfl (.inr ⟨hnew, .inl hbig⟩), fun h => absurd rfl h⟩
      rw [m_pullup]
      simp only
      rw [if_neg hfit, if_pos hbig]
    · cases ha : alloc 0 with
      | none =>
        refine ⟨[], fun fuel _ => ?_, iff_of_true rfl (.inr ⟨hnew, .inr rfl⟩), fun h => absurd rfl h⟩
        rw [m_pullup]
        simp only
        rw [if_neg hfit, if_neg hbig, ha]
      | some raw =>
        obtain ⟨hmok, hmb, hmext, hmp', hmh, hml, hspace, hnok, hnb⟩ := newFirst_spec raw hn
        obtain ⟨r, hr, hp⟩ := @pullLoop_spec (newFirst raw n).1 ((newFirst raw n).2 :: ns) len
          (MLEN - ((newFirst raw n).1.data + (newFirst raw n).1.len)) max_protohdr hmp (ns.length + 1)
          (by simp) (by simp) hmok hmext (by omega) h₀ (by omega) (chain_cons.2 ⟨hnok, hns⟩)
        obtain ⟨hnull, hsome⟩ := pulled_spec hp hmok
        have hall : bytes ((newFirst raw n).2 :: ns) = bytes (n :: ns) := by rw [bytes_cons, hnb, bytes_cons]
        rw [hall] at hnull hsome
        refine ⟨pulled r, fun fuel hf => ?_, hnull.trans ⟨.inl, fun h => ?_⟩, fun h => ?_⟩
        · rw [m_pullup]
          simp only
          rw [if_neg hfit, if_neg hbig, ha]
          simp only
          rw [pullLoop_mono (by simpa using hf) hr]
          rfl
        · rcases h with hlt | ⟨-, hbig' | hnone⟩
          · exact hlt
          · exact absurd hbig' hbig
          · cases hnone
        · obtain ⟨hok, hbytes, m', hm', hflags, hpkt, hlen⟩ := hsome h
          refine ⟨by rw [hbytes, hmb]; rfl, hok, fun m hm => ?_⟩
          obtain rfl : n = m := by simpa using hm
          exact ⟨m', hm', by rw [hflags]; exact hmext, by omega, by rw [hflags]; exact hmp', fun h => hpkt.trans (hmh h)⟩

end Pullup

/-! ## m_cat -/

/-- The loop of `m_cat` from the last mbuf of the first chain on. -/
def catLoop (m : Mbuf) : List Mbuf → List Mbuf
  | [] => [m]
  | n :: ns =>
    if m.flags.ext = true ∨ m.data + m.len + n.len ≥ MLEN then m :: n :: ns
    else catLoop { m.write m.len n 0 n.len with len := m.len + n.len } ns

def m_cat : List Mbuf → List Mbuf → List Mbuf
  | [], _ => []
  | [m], ns => catLoop m ns
  | m :: m' :: ms, ns => m :: m_cat (m' :: ms) ns

theorem catLoop_spec {m : Mbuf} {ns : List Mbuf} (hm : m.Ok) (hns : Chain ns) :
    Chain (catLoop m ns) ∧ bytes (catLoop m ns) = m.bytes ++ bytes ns ∧
      ∃ m' ∈ (catLoop m ns).head?, m'.flags = m.flags ∧ m'.pkthdr = m.pkthdr := by
  induction ns generalizing m with
  | nil => exact ⟨chain_cons.2 ⟨hm, hns⟩, by simp [catLoop], m, rfl, rfl, rfl⟩
  | cons n ns ih =>
    obtain ⟨hn, hns'⟩ := chain_cons.1 hns
    rw [catLoop]
    split
    · exact ⟨chain_cons.2 ⟨hm, hns⟩, by simp, m, rfl, rfl, rfl⟩
    · rename_i hroom
      simp only [not_or] at hroom
      obtain ⟨hok, hbytes⟩ := absorb_spec hm (by simpa using hroom.1) hn.len (Int.le_refl n.len) (by omega)
      obtain ⟨hc, hb, m', hm', hflags, hpkt⟩ := ih hok hns'
      refine ⟨hc, ?_, m', hm', hflags, hpkt⟩
      rw [hb, hbytes, List.take_of_length_le (Nat.le_of_eq (length_bytes n)), bytes_cons, List.append_assoc]

/-- The concatenation, with the packet header of the first chain as it was. -/
structure Joined (ms ns r : List Mbuf) : Prop where
  bytes : bytes r = bytes ms ++ bytes ns
  ok : Chain r
  first : ∀ m ∈ ms.head?, ∃ m' ∈ r.head?, m'.flags = m.flags ∧ m'.pkthdr = m.pkthdr

theorem m_cat_spec (ms ns : List Mbuf) (hne : ms ≠ []) (hms : Chain ms) (hns : Chain ns) : Joined ms ns (m_cat ms ns) := by
  induction ms with
  | nil => exact absurd rfl hne
  | cons m ms ih =>
    obtain ⟨hm, hms'⟩ := chain_cons.1 hms
    cases ms with
    | nil =>
      obtain ⟨hc, hb, m', hm', hflags, hpkt⟩ := catLoop_spec hm hns
      refine ⟨by rw [m_cat, hb]; simp, hc, fun x hx => ?_⟩
      obtain rfl : m = x := by simpa using hx
      exact ⟨m', hm', hflags, hpkt⟩
    | cons m₂ ms =>
      have hj := ih (by simp) hms'
      refine ⟨?_, chain_cons.2 ⟨hm, hj.ok⟩, fun x hx => ?_⟩
      · rw [m_cat, bytes_cons, hj.bytes, bytes_cons m, List.append_assoc]
      · obtain rfl : m = x := by simpa using hx
        exact ⟨m, rfl, rfl, rfl⟩

end BsdKernel.Mbufs
