import BsdKernel.Inet.IpReass
/-!
# What reassembly hands to a protocol

The header checks of `ipintr` in `inet/ip_input.c`, and what may be said of a datagram
that `ip_reass` has put together of whatever fragments came through them.

`ipintr` passes the header length of the fragment that arrived last, while the header
of the datagram is that of the fragment at its front, and `ip_reass` stores the sum of
the lengths in a short. `reass_safe_iff`: what the protocol gets is consistent exactly
if the fragment at the front has a header of the same length as the last one and no
fragment ends behind 32767.
-/

namespace BsdKernel.IpReass

open BsdKernel.Lib

def IP_MAXPACKET : Int := 65535

/-- A packet as it comes to `ipintr`, with its fields in host order. `sum` says that the checksum is right,
and `ours` that its options are processed and it is addressed here; `bytes` are those of the mbufs. -/
structure Raw where
  hl : BitVec 4
  len : BitVec 16
  off : BitVec 16
  key : Key
  sum : Bool
  ours : Bool
  bytes : List UInt8
  deriving DecidableEq, Repr

/-- The header checks of `ipintr`; a packet that is longer than its `ip_len` is trimmed. -/
def Raw.check (r : Raw) : Option Ip :=
  if r.bytes.length < 20 then none
  else if hlen r.hl < 20 then none
  else if hlen r.hl > r.bytes.length then none
  else if r.sum = false then none
  else if r.len.toInt < hlen r.hl then none
  else if r.bytes.length < r.len.toInt then none
  else if r.ours = false then none
  else some ⟨r.hl, r.len.toInt, r.off, r.key, (r.bytes.take r.len.toInt.toNat).drop (hlen r.hl)⟩

/-- The queues after the packets have arrived. -/
def ipintr (rs : List Raw) : List Ipq := arrived (rs.filterMap Raw.check)

/-- The header length that is passed, that of the datagram and its bytes agree. -/
structure Safe (passed : Nat) (p : Packet) : Prop where
  hlen_eq : passed = hlen p.hl
  len_eq : p.len = p.data.length
  le_max : passed + p.len ≤ IP_MAXPACKET

/-- The first fragment of the queue, if it stays in front of the arriving one, has a header as long, and no
fragment ends behind 32767. -/
structure Even (q : List Frag) (f : Frag) : Prop where
  header : ∀ a, q.head? = some a → a.off ≤ f.off → a.hl = f.hl
  arriving : f.stop ≤ 32767
  waiting : ∀ a ∈ q, a.stop ≤ 32767

/-! ## Fragments that came through the checks -/

/-- The fields of a fragment are shorts, and its length is that of its bytes. -/
structure Frag.Valid (f : Frag) : Prop where
  off_range : -32768 ≤ f.off ∧ f.off ≤ 32767
  len_range : 0 ≤ f.len ∧ f.len ≤ 32767
  data_len : f.len = f.data.length

variable {f g : Frag} {q q' l : List Frag}

theorem Frag.Valid.adj (h : f.Valid) {i : Int} (hi : 0 < i) (hlt : i < f.len) : (f.adj i).Valid := by
  have hlen := h.len_range
  have hnew : (f.adj i).len = f.len - i := short_eq (by omega) (by omega)
  refine ⟨short_range _, by omega, ?_⟩
  rw [hnew, h.data_len]
  show _ = ((f.data.drop i.toNat).length : Int)
  rw [List.length_drop]
  have := h.data_len
  omega

theorem Frag.Valid.rest (h : f.Valid) (hr : frags.Rest f g) : g.Valid := by
  rcases hr with rfl | ⟨i, hi, hlt, rfl⟩
  · exact h
  · exact h.adj hi hlt

/-- What is left of a fragment ends where it did, unless its offset has wrapped. -/
theorem Frag.Valid.rest_stop (h : f.Valid) (hr : frags.Rest f g) (hg : 0 ≤ g.off) : g.stop = f.stop := by
  rcases hr with rfl | ⟨i, hi, hlt, rfl⟩
  · rfl
  · have hlen := h.len_range
    have hoff := h.off_range
    have hlt : i < f.len := hlt
    have hnew : (f.adj i).len = f.len - i := short_eq (by omega) (by omega)
    have hpos : (f.adj i).off = f.off + i := by
      change 0 ≤ short (f.off + i) at hg
      show short (f.off + i) = f.off + i
      unfold short at hg ⊢
      omega
    rw [Frag.stop, Frag.stop]
    show (f.adj i).off + (f.adj i).len = _
    omega

theorem Raw.check_valid {r : Raw} {ip : Ip} (h : r.check = some ip) : ip.frag.Valid := by
  unfold Raw.check at h
  split_ifs at h
  obtain rfl := Option.some.inj h
  have hlen : short (r.len.toInt - hlen r.hl) = r.len.toInt - hlen r.hl := by
    have := r.len.toInt_lt
    exact short_eq (by omega) (by omega)
  have hnew : Frag.len (Ip.frag ⟨r.hl, r.len.toInt, r.off, r.key, (r.bytes.take r.len.toInt.toNat).drop (IpReass.hlen r.hl)⟩) =
      r.len.toInt - IpReass.hlen r.hl := hlen
  refine ⟨?_, ?_, ?_⟩
  · rw [Ip.frag, off_toInt]
    exact short_range _
  · have := r.len.toInt_lt
    omega
  · rw [hnew]
    show _ = (((r.bytes.take r.len.toInt.toNat).drop (IpReass.hlen r.hl)).length : Int)
    rw [List.length_drop, List.length_take]
    omega

theorem insert_valid (hq : ∀ a ∈ q, a.Valid) (hf : f.Valid) (h : frags.insert q f = some q') : ∀ a ∈ q', a.Valid := by
  obtain ⟨l, m, g, rfl, rfl, hg, -⟩ := insert_parts h
  intro a ha
  rcases List.mem_append.1 ha with ha | ha
  · exact hq a (List.mem_append_left m ha)
  · rcases List.mem_cons.1 ha with rfl | ha
    · exact hf.rest hg
    · obtain ⟨b, hb, hr⟩ := mem_trimAfter ha
      exact (hq b (List.mem_append_right l hb)).rest hr

theorem ipReass_valid (hq : ∀ a ∈ q, a.Valid) (hf : f.Valid) : ∀ a ∈ (ipReass q f).1, a.Valid := by
  unfold ipReass
  cases hi : frags.insert q f with
  | none => exact hq
  | some q' =>
    have hq' := insert_valid hq hf hi
    simp only
    cases complete q' with
    | none => exact hq'
    | some p => simp

theorem arrived_valid {ips : List Ip} (h : ∀ ip ∈ ips, ip.frag.Valid) (k : Key) : ∀ a ∈ queue (arrived ips) k, a.Valid := by
  induction ips using List.reverseRecOn with
  | nil => simp [arrived, queue]
  | append_singleton ips ip ih =>
    have ih := ih fun g hg => h g (List.mem_append_left _ hg)
    rw [arrived_append]
    by_cases hk : ip.key = k
    · subst hk
      unfold ours
      split_ifs
      · rw [queue_setQueue_self]
        exact ipReass_valid ih (h ip (by simp))
      · rw [queue_setQueue_self]
        simp
      · exact ih
    · rw [queue_ours_ne hk]
      exact ih

theorem ipintr_valid (rs : List Raw) (k : Key) : ∀ a ∈ queue (ipintr rs) k, a.Valid := by
  refine arrived_valid (fun ip hip => ?_) k
  obtain ⟨r, -, hr⟩ := List.mem_filterMap.1 hip
  exact Raw.check_valid hr

/-! ## A datagram that is complete -/

/-- A scan that ends has added up the bytes, and no fragment ends behind its end. -/
theorem scan_valid (hq : ∀ a ∈ q, a.Valid) {next t : Int} (hnext : 0 ≤ next) (h : scan next q = some t) :
    t = next + (q.map Frag.data).flatten.length ∧ (∀ a ∈ q, 0 ≤ a.off ∧ a.stop ≤ t) ∧ (q ≠ [] → ∃ a ∈ q, a.stop = t) := by
  induction q generalizing next with
  | nil =>
    obtain rfl := Option.some.inj h
    simp
  | cons a q ih =>
    obtain ⟨ha, hq⟩ := List.forall_mem_cons.1 hq
    rw [scan] at h
    split_ifs at h with hoff
    have hoff := not_not.1 hoff
    have hlen := ha.len_range
    have hstop : a.stop = next + a.len := by rw [Frag.stop, hoff]
    obtain ⟨ht, hall, hlast⟩ := ih hq (by omega) h
    refine ⟨?_, List.forall_mem_cons.2 ⟨⟨by omega, by omega⟩, hall⟩, fun _ => ?_⟩
    · rw [List.map_cons, List.flatten_cons, List.length_append]
      have := ha.data_len
      omega
    · by_cases hnil : q = []
      · subst hnil
        obtain rfl := Option.some.inj h
        exact ⟨a, List.mem_cons_self, hstop⟩
      · obtain ⟨b, hb, hbt⟩ := hlast hnil
        exact ⟨b, List.mem_cons_of_mem a hb, hbt⟩

theorem complete_some {p : Packet} (h : complete q = some p) :
    ∃ front t, q.head? = some front ∧ scan 0 q = some t ∧ p = ⟨front.hl, short t, (q.map Frag.data).flatten⟩ := by
  unfold complete at h
  split at h
  · rename_i front last t hfront hlast hscan
    split_ifs at h
    exact ⟨front, t, hfront, hscan, (Option.some.inj h).symm⟩
  · cases h

/-- The front of the queue is the first fragment that waited, or the one that arrived. -/
theorem front_header (h : frags.insert q f = some q') {front : Frag} (hfront : q'.head? = some front) :
    front.hl = f.hl ↔ ∀ a, q.head? = some a → a.off ≤ f.off → a.hl = f.hl := by
  obtain ⟨l, m, g, rfl, rfl, -, hg, hbefore, hbehind⟩ := insert_parts h
  cases l with
  | nil =>
    obtain rfl := Option.some.inj hfront
    rw [hg rfl]
    refine ⟨fun _ a ha hle => ?_, fun _ => rfl⟩
    have : a.off > f.off := by simpa [frags] using hbehind a ha
    omega
  | cons a l =>
    obtain rfl := Option.some.inj hfront
    have hle : a.off ≤ f.off := by simpa [frags] using hbefore a List.mem_cons_self
    constructor
    · intro heq b hb _
      obtain rfl := Option.some.inj hb
      exact heq
    · exact fun hall => hall a rfl hle

/-- The datagram ends where the last of its fragments did. -/
theorem total_le (hq : ∀ a ∈ q, a.Valid) (hf : f.Valid) (h : frags.insert q f = some q') {t : Int} (hscan : scan 0 q' = some t) :
    t ≤ 32767 ↔ f.stop ≤ 32767 ∧ ∀ a ∈ q, a.stop ≤ 32767 := by
  obtain ⟨-, hall, hlast⟩ := scan_valid (insert_valid hq hf h) (Int.le_refl 0) hscan
  have hne := hlast (insert_ne_nil h)
  obtain ⟨l, m, g, rfl, rfl, hg, -⟩ := insert_parts h
  have hgq : g ∈ l ++ g :: frags.trimAfter g m := by simp
  have hgstop := hf.rest_stop hg (hall g hgq).1
  constructor
  · intro ht
    have hgt := (hall g hgq).2
    refine ⟨by omega, fun a ha => ?_⟩
    rcases List.mem_append.1 ha with ha' | ha'
    · have := (hall a (List.mem_append_left _ ha')).2
      omega
    · rcases trimAfter_keeps (C := frags) (f := g) ha' with ⟨b, hb, hr⟩ | hover
      · have hb := hall b (List.mem_append_right _ (List.mem_cons_of_mem g hb))
        have := (hq a ha).rest_stop hr hb.1
        omega
      · have : a.len ≤ g.off + g.len - a.off := hover
        unfold Frag.stop at *
        omega
  · rintro ⟨hfs, hqs⟩
    obtain ⟨b, hb, rfl⟩ := hne
    rcases List.mem_append.1 hb with hb' | hb'
    · exact hqs b (List.mem_append_left m hb')
    · rcases List.mem_cons.1 hb' with rfl | hb'
      · omega
      · obtain ⟨a, ha, hr⟩ := mem_trimAfter hb'
        have ha := List.mem_append_right l ha
        have := (hq a ha).rest_stop hr (hall b hb).1
        have := hqs a ha
        omega

theorem hlen_inj {a b : BitVec 4} : hlen a = hlen b ↔ a = b := by
  unfold hlen
  rw [← BitVec.toNat_inj]
  omega

theorem ipReass_safe_iff (hq : ∀ a ∈ q, a.Valid) (hf : f.Valid) {p : Packet} (h : (ipReass q f).2 = some p) :
    Safe (hlen f.hl) p ↔ Even q f := by
  unfold ipReass at h
  cases hi : frags.insert q f with
  | none => simp [hi] at h
  | some q' =>
    simp only [hi] at h
    cases hc : complete q' with
    | none => simp [hc] at h
    | some p' =>
      simp only [hc, Option.some.injEq] at h
      subst h
      obtain ⟨front, t, hfront, hscan, rfl⟩ := complete_some hc
      have htot := total_le hq hf hi hscan
      obtain ⟨ht, -⟩ := scan_valid (insert_valid hq hf hi) (Int.le_refl 0) hscan
      have hhead := front_header hi hfront
      have hlen : short t = ((q'.map Frag.data).flatten.length : Int) ↔ t ≤ 32767 := by
        unfold short
        omega
      constructor
      · intro hs
        have hends := htot.1 (hlen.1 hs.len_eq)
        exact ⟨hhead.1 (hlen_inj.1 hs.hlen_eq).symm, hends.1, hends.2⟩
      · intro he
        refine ⟨hlen_inj.2 (hhead.2 he.header).symm, hlen.2 (htot.2 ⟨he.arriving, he.waiting⟩), ?_⟩
        have := (short_range t).2
        have := f.hl.isLt
        simp only [IpReass.hlen, IP_MAXPACKET]
        omega

/-- A fragment with so many words of header and so many bytes. -/
def fragment (hl : BitVec 4) (off : BitVec 16) (n : Nat) : Raw :=
  ⟨hl, BitVec.ofNat 16 (hlen hl + n), off, ⟨1, 2, 3, 17⟩, true, true, List.replicate (hlen hl + n) 0⟩

end BsdKernel.IpReass
