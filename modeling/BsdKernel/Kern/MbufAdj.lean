import BsdKernel.Kern.MbufSplit
import BsdKernel.Kern.MbufPullup
import BsdKernel.Kern.MbufCopy
import BsdKernel.Lib.Signed
/-!
# Trimming a chain

`m_adj` of `kern/uipc_mbuf.c` drops the first `req_len` bytes of a chain, or the last
`-req_len`. Its numbers are `int`s, and the negative of the least one is itself
(`m_adj_spec` says when the result is right). The last section puts the four
routines that cut and join chains together.
-/

namespace BsdKernel.Mbufs

open BsdKernel.Lib

/-- The loop that trims from the head. -/
def trimHead (len : Int) : List Mbuf → Int × List Mbuf
  | [] => (len, [])
  | m :: ms =>
    if len > 0 then
      if m.len ≤ len then
        let (len, ms) := trimHead (len - m.len) ms
        (len, { m with len := 0 } :: ms)
      else (0, { m with len := m.len - len, data := m.data + len } :: ms)
    else (len, m :: ms)

/-- The scan for the length of the chain and its last mbuf. -/
def scan (count : Int) (m : Mbuf) : List Mbuf → Int × Mbuf
  | [] => (wrap32 (count + m.len), m)
  | n :: ns => scan (wrap32 (count + m.len)) n ns

/-- The loops that keep `count` bytes; `none` if they run off the end. -/
def keep (count : Int) : List Mbuf → Option (List Mbuf)
  | [] => none
  | m :: ms =>
    if m.len ≥ count then some ({ m with len := count } :: ms.map fun m => { m with len := 0 })
    else (keep (count - m.len) ms).map (m :: ·)

/-- A store to `mp->m_pkthdr.len`, if it is there. -/
def setPktlen (f : Int → Int) : List Mbuf → List Mbuf
  | [] => []
  | mp :: ms =>
    if mp.flags.pkthdr then { mp with pkthdr := { mp.pkthdr with len := wrap32 (f mp.pkthdr.len) } } :: ms else mp :: ms

def m_adj (chain : List Mbuf) (req_len : Int) : Option (List Mbuf) :=
  match chain with
  | [] => some []
  | mp :: ms =>
    if req_len ≥ 0 then
      let (len, chain) := trimHead req_len (mp :: ms)
      some (setPktlen (· - (req_len - len)) chain)
    else
      let len := wrap32 (-req_len)
      let (count, m) := scan 0 mp ms
      if m.len ≥ len then
        some (setPktlen (· - len) ((mp :: ms).dropLast ++ [{ m with len := wrap32 (m.len - len) }]))
      else
        let count := wrap32 (count - len)
        let count := if count < 0 then 0 else count
        keep count (setPktlen (fun _ => count) (mp :: ms))

section Adj
variable {m n : Mbuf} {ms ns chain r : List Mbuf} {len count req : Int}

/-! ## The loops -/

/-- The first mbufs of two chains have the same flags and packet headers. -/
def SameFirst (ms ns : List Mbuf) : Prop := ∀ m ∈ ms.head?, ∃ n ∈ ns.head?, n.flags = m.flags ∧ n.pkthdr = m.pkthdr

theorem sameFirst_cons (hf : n.flags = m.flags) (hp : n.pkthdr = m.pkthdr) : SameFirst (m :: ms) (n :: ns) := by
  intro x hx
  obtain rfl : m = x := by simpa using hx
  exact ⟨n, rfl, hf, hp⟩

theorem shorten_spec (hm : m.Ok) (h₀ : 0 ≤ count) (hle : count ≤ m.len) :
    ({ m with len := count } : Mbuf).Ok ∧ ({ m with len := count } : Mbuf).bytes = m.bytes.take count.toNat := by
  refine ⟨⟨h₀, hm.low, Int.le_trans (Int.add_le_add_left hle _) hm.high⟩, ?_⟩
  have hpart := part_bytes (Int.le_refl 0) h₀ (by omega : 0 + count ≤ m.len)
  rwa [Int.add_zero] at hpart

theorem empty_spec (hms : Chain ms) :
    Chain (ms.map fun m => { m with len := 0 }) ∧ bytes (ms.map fun m => { m with len := 0 }) = [] := by
  induction ms with
  | nil => exact ⟨hms, rfl⟩
  | cons m ms ih =>
    obtain ⟨hm, hms⟩ := chain_cons.1 hms
    obtain ⟨hc, hb⟩ := ih hms
    refine ⟨chain_cons.2 ⟨(shorten_spec hm (Int.le_refl 0) hm.len).1, hc⟩, ?_⟩
    rw [List.map_cons, bytes_cons, hb]
    rfl

theorem trimHead_spec (hms : Chain ms) (h₀ : 0 ≤ len) :
    (trimHead len ms).1 = max 0 (len - (bytes ms).length) ∧ Chain (trimHead len ms).2 ∧
      bytes (trimHead len ms).2 = (bytes ms).drop len.toNat ∧ SameFirst ms (trimHead len ms).2 := by
  induction ms generalizing len with
  | nil => exact ⟨by simp [trimHead]; omega, hms, by simp [trimHead], fun m hm => by cases hm⟩
  | cons m ms ih =>
    obtain ⟨hm, hms⟩ := chain_cons.1 hms
    have hml := hm.length
    have hm₀ := hm.len
    rw [trimHead, bytes_cons, List.length_append, Int.natCast_add, hml]
    by_cases hpos : len > 0
    · rw [if_pos hpos]
      by_cases hwhole : m.len ≤ len
      · rw [if_pos hwhole]
        obtain ⟨hlen, hc, hb, -⟩ := @ih (len - m.len) hms (by omega)
        obtain ⟨hmt, hmb⟩ := shorten_spec hm (Int.le_refl 0) hm₀
        refine ⟨by rw [hlen]; omega, chain_cons.2 ⟨hmt, hc⟩, ?_, sameFirst_cons rfl rfl⟩
        have hsplit : len.toNat = m.bytes.length + (len - m.len).toNat := by omega
        rw [bytes_cons, hmb, hb, hsplit, List.drop_length_add_append]
        rfl
      · rw [if_neg hwhole]
        obtain ⟨hok, hb⟩ := rest_spec hm h₀ (by omega)
        refine ⟨by simp only; omega, chain_cons.2 ⟨hok, hms⟩, ?_, sameFirst_cons rfl rfl⟩
        rw [bytes_cons, hb, List.drop_append_of_le_length (by omega)]
    · rw [if_neg hpos]
      have hz : len = 0 := by omega
      refine ⟨by simp only; omega, chain_cons.2 ⟨hm, hms⟩, by rw [hz]; rfl, sameFirst_cons rfl rfl⟩

theorem scan_spec (hms : Chain (m :: ms)) :
    (scan count m ms).1 = wrap32 (count + (bytes (m :: ms)).length) ∧
      m :: ms = (m :: ms).dropLast ++ [(scan count m ms).2] := by
  induction ms generalizing count m with
  | nil =>
    have hml := (hms m (by simp)).length
    exact ⟨by rw [scan, bytes_cons, bytes_nil, List.append_nil, hml], rfl⟩
  | cons n ns ih =>
    obtain ⟨hm, hns⟩ := chain_cons.1 hms
    obtain ⟨hcount, hlast⟩ := @ih n (wrap32 (count + m.len)) hns
    refine ⟨?_, congrArg (m :: ·) hlast⟩
    rw [scan, hcount, wrap32_wrap32_add, bytes_cons m, List.length_append, Int.natCast_add, hm.length, Int.add_assoc]

theorem keep_spec (hms : Chain ms) (hne : ms ≠ []) (h₀ : 0 ≤ count) (hle : count ≤ (bytes ms).length) :
    ∃ r, keep count ms = some r ∧ Chain r ∧ bytes r = (bytes ms).take count.toNat ∧ SameFirst ms r := by
  induction ms generalizing count with
  | nil => exact absurd rfl hne
  | cons m ms ih =>
    obtain ⟨hm, hms⟩ := chain_cons.1 hms
    have hml := hm.length
    rw [keep]
    by_cases hge : m.len ≥ count
    · obtain ⟨hok, hb⟩ := shorten_spec hm h₀ hge
      obtain ⟨hc, he⟩ := empty_spec hms
      refine ⟨_, if_pos hge, chain_cons.2 ⟨hok, hc⟩, ?_, sameFirst_cons rfl rfl⟩
      rw [bytes_cons, hb, he, List.append_nil, bytes_cons, List.take_append_of_le_length (by omega)]
    · rw [bytes_cons, List.length_append, Int.natCast_add] at hle
      have hmore : ms ≠ [] := by
        rintro rfl
        rw [bytes_nil, List.length_nil] at hle
        omega
      obtain ⟨r, hr, hc, hb, -⟩ := @ih (count - m.len) hms hmore (by omega) (by omega)
      refine ⟨m :: r, by rw [if_neg hge, hr]; rfl, chain_cons.2 ⟨hm, hc⟩, ?_, sameFirst_cons rfl rfl⟩
      have hsplit : count.toNat = m.bytes.length + (count - m.len).toNat := by omega
      rw [bytes_cons, hb, bytes_cons, hsplit, List.take_length_add_append]

/-- The store changes no data, and nothing else of the first mbuf. -/
theorem setPktlen_spec (f : Int → Int) (ms : List Mbuf) :
    bytes (setPktlen f ms) = bytes ms ∧ (Chain (setPktlen f ms) ↔ Chain ms) ∧
      ∀ m ∈ ms.head?, m.flags.pkthdr = true → ∃ n ∈ (setPktlen f ms).head?, n.flags = m.flags ∧
        n.pkthdr = { m.pkthdr with len := wrap32 (f m.pkthdr.len) } := by
  cases ms with
  | nil => exact ⟨rfl, Iff.rfl, fun m hm => by cases hm⟩
  | cons m ms =>
    rw [setPktlen]
    by_cases hp : m.flags.pkthdr = true
    · rw [if_pos hp]
      refine ⟨rfl, ?_, fun x hx _ => ?_⟩
      · rw [chain_cons, chain_cons]
        exact and_congr_left fun _ => ⟨fun h => ⟨h.len, h.low, h.high⟩, fun h => ⟨h.len, h.low, h.high⟩⟩
      · obtain rfl : m = x := by simpa using hx
        exact ⟨_, rfl, rfl, rfl⟩
    · rw [if_neg hp]
      refine ⟨rfl, Iff.rfl, fun x hx hpx => ?_⟩
      obtain rfl : m = x := by simpa using hx
      exact absurd hpx hp

/-! ## m_adj -/

/-- The bytes without the first `req`, or without the last `-req`. -/
def left (chain : List Mbuf) (req : Int) : List Byte :=
  if 0 ≤ req then (bytes chain).drop req.toNat else (bytes chain).take ((bytes chain).length + req).toNat

/-- A chain cut to these bytes, with their number in its packet header. -/
structure Trimmed (chain : List Mbuf) (req : Int) (r : List Mbuf) : Prop where
  bytes : bytes r = left chain req
  ok : Chain r
  header : ∀ m ∈ chain.head?, m.flags.pkthdr = true → ∃ n ∈ r.head?, n.flags = m.flags ∧
    n.pkthdr = { m.pkthdr with len := (Mbufs.bytes r).length }

/-- What the `int`s of `m_adj` can count: `-req` is one, and if it takes more than the
last mbuf, so is the length that stays. -/
def Counted (chain : List Mbuf) (req : Int) : Prop :=
  0 ≤ req ∨ -2 ^ 31 < req ∧ ((∃ m ∈ chain.getLast?, -req ≤ m.len) ∨ (bytes chain).length + req < 2 ^ 31)

theorem trimmed_of_store (f : Int → Int) (hb : bytes r = left chain req) (hc : Chain r) (hfirst : SameFirst chain r)
    (hlen : ∀ m ∈ chain.head?, m.flags.pkthdr = true → wrap32 (f m.pkthdr.len) = (bytes r).length) :
    Trimmed chain req (setPktlen f r) := by
  obtain ⟨hbs, hcs, hhs⟩ := setPktlen_spec f r
  refine ⟨hbs.trans hb, hcs.2 hc, fun m hm hp => ?_⟩
  obtain ⟨n, hn, hnf, hnp⟩ := hfirst m hm
  obtain ⟨n', hn', hnf', hnp'⟩ := hhs n hn (by rw [hnf]; exact hp)
  refine ⟨n', hn', hnf'.trans hnf, hnp'.trans ?_⟩
  rw [hnp, hlen m hm hp, hbs]

/-- The packet header of a chain has its length, which is an `int`. -/
def HdrLen (chain : List Mbuf) : Prop :=
  ∀ m ∈ chain.head?, m.flags.pkthdr = true → m.pkthdr.len = (bytes chain).length ∧ Fits32 m.pkthdr.len

theorem adj_head (hc : Chain chain) (hhdr : HdrLen chain) (h₀ : 0 ≤ req) :
    Trimmed chain req (setPktlen (· - (req - (trimHead req chain).1)) (trimHead req chain).2) := by
  obtain ⟨hlen, hok, hb, hfirst⟩ := trimHead_spec hc h₀
  refine trimmed_of_store _ (hb.trans (if_pos h₀).symm) hok hfirst fun m hm hp => ?_
  obtain ⟨hl, hfit⟩ := hhdr m hm hp
  rw [hlen, hb, List.length_drop]
  unfold Fits32 at hfit
  rw [wrap32_of_fits (by unfold Fits32; omega)]
  omega

/-- The last bytes are all in the last mbuf. -/
theorem adj_last {front : List Mbuf} (hc : Chain chain) (hhdr : HdrLen chain) (hchain : chain = front ++ [m])
    (hneg : req < 0) (hle : -req ≤ m.len) :
    Trimmed chain req (setPktlen (· - -req) (front ++ [{ m with len := wrap32 (m.len - -req) }])) := by
  have hcs := chain_append.1 (hchain ▸ hc)
  obtain ⟨hm, -⟩ := chain_cons.1 hcs.2
  have hml := hm.length
  have hcl := len_le_cluster hm
  unfold MCLBYTES at hcl
  have hwrap : wrap32 (m.len - -req) = m.len - -req := wrap32_of_fits (by unfold Fits32; omega)
  obtain ⟨hok, hb⟩ := shorten_spec hm (by omega : 0 ≤ m.len - -req) (by omega)
  have htotal : (bytes chain).length = (bytes front).length + m.bytes.length := by
    rw [hchain, bytes_append, List.length_append, bytes_cons, bytes_nil, List.append_nil]
  have hbytes : bytes (front ++ [{ m with len := m.len - -req }]) = left chain req := by
    have hsplit : ((bytes chain).length + req).toNat = (bytes front).length + (m.len - -req).toNat := by omega
    rw [left, if_neg (by omega), hsplit, hchain, bytes_append, bytes_append, List.take_length_add_append, bytes_cons, hb,
      bytes_nil, bytes_cons, bytes_nil, List.append_nil, List.append_nil]
  rw [hwrap]
  refine trimmed_of_store _ hbytes (chain_append.2 ⟨hcs.1, chain_cons.2 ⟨hok, fun x hx => by cases hx⟩⟩) ?_ fun x hx hp => ?_
  · rw [hchain]
    cases front with
    | nil => exact sameFirst_cons rfl rfl
    | cons _ _ => exact sameFirst_cons rfl rfl
  · obtain ⟨hl, hfit⟩ := hhdr x hx hp
    unfold Fits32 at hfit
    rw [hbytes, left, if_neg (by omega), List.length_take, wrap32_of_fits (by unfold Fits32; omega)]
    omega

/-- The other case: the chain is cut after what the count says. -/
theorem adj_tail (hc : Chain chain) (hne : chain ≠ []) (hhdr : HdrLen chain) (hneg : req < 0) (hmin : -2 ^ 31 < req) :
    ∃ r, keep (max 0 (wrap32 ((bytes chain).length + req)))
        (setPktlen (fun _ => max 0 (wrap32 ((bytes chain).length + req))) chain) = some r ∧
      (Trimmed chain req r ↔ (bytes chain).length + req < 2 ^ 31) := by
  obtain ⟨hbs, hcs, hhs⟩ := setPktlen_spec (fun _ => max 0 (wrap32 ((bytes chain).length + req))) chain
  have hnes : setPktlen (fun _ => max 0 (wrap32 ((bytes chain).length + req))) chain ≠ [] := by
    obtain ⟨m, ms, rfl⟩ := List.exists_cons_of_ne_nil hne
    rw [setPktlen]
    split <;> simp
  have hcount : max 0 (wrap32 ((bytes chain).length + req)) ≤ (bytes chain).length := by
    unfold wrap32
    omega
  generalize setPktlen (fun _ => max 0 (wrap32 ((bytes chain).length + req))) chain = stored at hbs hcs hhs hnes ⊢
  obtain ⟨r, hr, hok, hb, hfirst⟩ := keep_spec (hcs.2 hc) hnes (Int.le_max_left 0 _) (by rw [hbs]; exact hcount)
  refine ⟨r, hr, fun ht => ?_, fun hfit => ?_⟩
  · have hl := congrArg List.length (hb.symm.trans ht.bytes)
    rw [hbs, left, if_neg (by omega), List.length_take, List.length_take] at hl
    unfold wrap32 at hl hcount
    omega
  · have hwrap : wrap32 ((bytes chain).length + req) = (bytes chain).length + req :=
      wrap32_of_fits (by unfold Fits32; omega)
    rw [hwrap] at hb hhs
    have hbytes : bytes r = left chain req := by
      have hnat : (max 0 (((bytes chain).length : Int) + req)).toNat = ((bytes chain).length + req).toNat := by omega
      rw [hb, hbs, hnat, left, if_neg (by omega)]
    refine ⟨hbytes, hok, fun m hm hp => ?_⟩
    obtain ⟨n, hn, hnf, hnp⟩ := hhs m hm hp
    obtain ⟨n', hn', hnf', hnp'⟩ := hfirst n hn
    refine ⟨n', hn', hnf'.trans hnf, hnp'.trans (hnp.trans ?_)⟩
    rw [hbytes, left, if_neg (by omega), List.length_take, wrap32_of_fits (by unfold Fits32; omega)]
    refine congrArg (fun l => { m.pkthdr with len := l }) ?_
    omega

/-- `m_adj` always comes back, and trims the chain exactly if its `int`s can count
what it has to. -/
theorem m_adj_spec (chain : List Mbuf) (hc : Chain chain) (hne : chain ≠ []) (hhdr : HdrLen chain) (req : Int)
    (hreq : Fits32 req) : ∃ r, m_adj chain req = some r ∧ (Trimmed chain req r ↔ Counted chain req) := by
  obtain ⟨mp, ms, rfl⟩ := List.exists_cons_of_ne_nil hne
  unfold Fits32 at hreq
  rw [m_adj]
  by_cases h₀ : req ≥ 0
  · rw [if_pos h₀]
    exact ⟨_, rfl, iff_of_true (adj_head hc hhdr h₀) (.inl h₀)⟩
  · rw [if_neg h₀]
    obtain ⟨hcount, hlast⟩ := @scan_spec mp ms 0 hc
    simp only
    generalize (scan 0 mp ms).2 = m at hlast ⊢
    rw [hcount, Int.zero_add]
    have hm : m.Ok := hc m (by rw [hlast]; simp)
    have hml := len_le_cluster hm
    have hm₀ := hm.len
    unfold MCLBYTES at hml
    have hget : (mp :: ms).getLast? = some m := by
      rw [hlast]
      simp
    by_cases hmin : req = -2 ^ 31
    · -- the length to cut is negative itself, and the last mbuf gets longer by it
      have hlen : wrap32 (-req) = -2 ^ 31 := by
        rw [hmin]
        rfl
      rw [hlen, if_pos (by omega)]
      refine ⟨_, rfl, iff_of_false (fun ht => ?_) fun hcnt => ?_⟩
      · have hok := ((setPktlen_spec _ _).2.1.1 ht.ok _ (List.mem_append_right _ List.mem_cons_self)).len
        simp only [wrap32] at hok
        omega
      · rcases hcnt with h | ⟨h, -⟩
        · exact h₀ h
        · omega
    · have hlen : wrap32 (-req) = -req := wrap32_of_fits (by unfold Fits32; omega)
      rw [hlen]
      by_cases hle : m.len ≥ -req
      · have ht : Trimmed (mp :: ms) req (setPktlen (· - -req) ((mp :: ms).dropLast ++ [{ m with len := wrap32 (m.len - -req) }])) :=
          adj_last hc hhdr hlast (by omega) hle
        rw [if_pos hle]
        exact ⟨_, rfl, iff_of_true ht (.inr ⟨by omega, .inl ⟨m, hget, hle⟩⟩)⟩
      · rw [if_neg hle]
        have hsum : wrap32 (wrap32 ((bytes (mp :: ms)).length : Int) - -req) = wrap32 ((bytes (mp :: ms)).length + req) := by
          rw [Int.sub_neg, wrap32_wrap32_add]
        have hmax : (if wrap32 ((bytes (mp :: ms)).length + req) < 0 then 0 else wrap32 ((bytes (mp :: ms)).length + req)) =
            max 0 (wrap32 ((bytes (mp :: ms)).length + req)) := by
          split <;> omega
        rw [hsum, hmax]
        obtain ⟨r, hr, hiff⟩ := @adj_tail (mp :: ms) req hc hne hhdr (by omega) (by omega)
        refine ⟨r, hr, hiff.trans ⟨fun h => .inr ⟨by omega, .inr h⟩, ?_⟩⟩
        rintro (h | ⟨-, ⟨x, hx, hxl⟩ | h⟩)
        · exact absurd h h₀
        · obtain rfl : m = x := Option.some.inj (hget.symm.trans hx)
          exact absurd hxl hle
        · exact h

end Adj

/-! ## The routines together -/

/-- On a chain with its length in its packet header, if it has one: `m_pullup`
returns `NULL` exactly if there are not `len` bytes, or it needs a new mbuf and
cannot have it, and else the same chain with `len` bytes in front together;
`m_copym` copies what is asked for unless its counter comes down to `M_COPYALL`
too early, `m_adj` trims what its `int`s can count, and `m_cat` concatenates. -/
theorem mbuf_routines (chain : List Mbuf) (hc : Chain chain) (hne : chain ≠ []) (hhdr : HdrLen chain) :
    (∀ (len max_protohdr : Int) (alloc : Alloc), 0 ≤ len → 0 ≤ max_protohdr →
      ∃ r, (∀ fuel, chain.length ≤ fuel → m_pullup max_protohdr alloc fuel chain len = some r) ∧
        (r = [] ↔ ((bytes chain).length : Int) < len ∨ (NeedsNew chain len ∧ (MHLEN < len ∨ alloc 0 = none))) ∧
        (r ≠ [] → Contiguous chain len r)) ∧
      (∀ (off len : Int) (alloc : Alloc), 0 ≤ off → 0 ≤ len →
        len = M_COPYALL ∧ off ≤ (bytes chain).length ∨ off + len ≤ (bytes chain).length →
        (m_copym alloc chain off len = .error .nospace ∧ ∃ k, alloc k = none) ∨
          ∃ r, m_copym alloc chain off len = .ok r ∧
            (CopyOf chain off len r ↔ Overruns chain off len → off + len = (bytes chain).length)) ∧
      (∀ req, Fits32 req → ∃ r, m_adj chain req = some r ∧ (Trimmed chain req r ↔ Counted chain req)) ∧
      ∀ ns, Chain ns → Joined chain ns (m_cat chain ns) := by
  refine ⟨fun len max_protohdr alloc h₀ hmp => ?_, fun off len alloc h₀ hlen hle => ?_, fun req hreq => ?_, fun ns hns => ?_⟩
  · exact m_pullup_spec chain hc hne len h₀ max_protohdr hmp alloc
  · exact m_copym_spec chain hc (fun h hh hp => (hhdr h hh hp).1) off h₀ len hlen hle alloc
  · exact m_adj_spec chain hc hne hhdr req hreq
  · exact m_cat_spec chain ns hne hc hns

theorem longChain_hdr : HdrLen longChain := by
  intro m hm _
  obtain rfl : zeroMbuf true 109 8 1 = m := by simpa [longChain] using hm
  exact ⟨by decide +kernel, by decide⟩

/-- A mbuf with one byte and a full one: twenty bytes pulled up, all but the first
copied, and all but the first cut off, which takes the whole of the second. -/
theorem mbuf_routines_long :
    (∃ r, m_pullup 0 (fun _ => none) 2 longChain 20 = some r ∧ Contiguous longChain 20 r) ∧
      (∃ r, m_copym (fun _ => some (zeroMbuf false 0 0 0)) longChain 1 M_COPYALL = .ok r ∧
        CopyOf longChain 1 M_COPYALL r) ∧
      (∃ r, m_adj longChain (-108) = some r ∧ Trimmed longChain (-108) r) ∧
      Joined longChain longChain (m_cat longChain longChain) := by
  have hne : longChain ≠ [] := by simp [longChain]
  obtain ⟨hpullup, hcopy, hadj, hcat⟩ := mbuf_routines longChain longChain_ok hne longChain_hdr
  have hlen : (bytes longChain).length = 109 := by decide +kernel
  refine ⟨?_, ?_, ?_, hcat longChain longChain_ok⟩
  · obtain ⟨r, hr, hnull, hsome⟩ := hpullup 20 0 (fun _ => none) (by decide) (by decide)
    refine ⟨r, hr 2 (Nat.le_refl 2), hsome fun h => ?_⟩
    rcases hnull.1 h with hlt | ⟨hnew, -⟩
    · rw [hlen] at hlt
      exact absurd hlt (by decide)
    · exact hnew _ _ rfl (by decide)
  · rcases hcopy 1 M_COPYALL (fun _ => some (zeroMbuf false 0 0 0)) (by decide) (by decide)
        (.inl ⟨rfl, by rw [hlen]; decide⟩) with ⟨-, k, hk⟩ | ⟨r, hr, hiff⟩
    · cases hk
    · exact ⟨r, hr, hiff.2 fun hover => absurd hover.1 (Int.lt_irrefl _)⟩
  · obtain ⟨r, hr, hiff⟩ := hadj (-108) (by decide)
    exact ⟨r, hr, hiff.2 (.inr ⟨by decide, .inl ⟨_, rfl, by decide⟩⟩)⟩

/-- The negative of the least `int` is itself: the full mbuf gets a negative length. -/
theorem m_adj_least :
    Chain longChain ∧ HdrLen longChain ∧ ∃ r, m_adj longChain (-2 ^ 31) = some r ∧
      r.map (·.len) = [1, 108 - 2 ^ 31] ∧ ¬Trimmed longChain (-2 ^ 31) r := by
  refine ⟨longChain_ok, longChain_hdr, _, rfl, by decide, fun h => ?_⟩
  exact absurd (chain_cons.1 (chain_cons.1 h.ok).2).1.len (by decide)

end BsdKernel.Mbufs
