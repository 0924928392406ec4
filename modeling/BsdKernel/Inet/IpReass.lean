import BsdKernel.Lib.Pieces
import Mathlib.Data.List.Induction
import Mathlib.Tactic.IntervalCases
/-!
# Reassembly of IP datagrams

`ipintr` from `ours` on and `ip_reass` of `inet/ip_input.c`. The fragments of a
datagram wait on a queue in the order of their offsets; a fragment is trimmed against
its neighbours (`Lib.Pieces`) and the queue is scanned for a whole datagram.

`ip_off` and `ip_len` are shorts. An offset from 32768 on is therefore negative and
sorts in front of offset 0, and a datagram of 32768 bytes or more does not fit its
`ip_len`. `reass_exact_iff`: reassembly is exact for the datagrams below that length,
and only for them.
-/

namespace BsdKernel.IpReass

open BsdKernel.Lib

/-- What is left of a value stored in a short. -/
def short (x : Int) : Int := (x + 32768) % 65536 - 32768

theorem short_eq {x : Int} (h₁ : -32768 ≤ x) (h₂ : x ≤ 32767) : short x = x := by
  unfold short
  omega

theorem short_range (x : Int) : -32768 ≤ short x ∧ short x ≤ 32767 := by
  unfold short
  omega

/-- What fragments of one datagram have in common. -/
structure Key where
  id : BitVec 16
  src : BitVec 32
  dst : BitVec 32
  p : BitVec 8
  deriving DecidableEq, Repr

/-- A datagram at `ours`: the header, and the bytes behind it. `len` is a short. -/
structure Ip where
  hl : BitVec 4
  len : Int
  off : BitVec 16
  key : Key
  data : List UInt8
  deriving DecidableEq, Repr

def IP_DF : BitVec 16 := 0x4000
def IP_MF : BitVec 16 := 0x2000

/-- The header length in bytes. -/
def hlen (hl : BitVec 4) : Nat := hl.toNat * 4

/-- `struct ipasfrag`, with the bytes of its mbufs. -/
structure Frag where
  hl : BitVec 4
  off : Int
  len : Int
  mff : Bool
  data : List UInt8
  deriving DecidableEq, Repr

/-- `m_adj` and the fields that go with it. -/
def Frag.adj (i : Int) (f : Frag) : Frag :=
  { f with off := short (f.off + i), len := short (f.len - i), data := f.data.drop i.toNat }

/-- The comparisons of `ip_reass`. -/
def frags : Cutter Frag where
  after q f := decide (q.off > f.off)
  reach p f := p.off + p.len - f.off
  len := Frag.len
  cut := Frag.adj

/-- The scan for a whole datagram: its length, if no fragment is missing before the last. -/
def scan (next : Int) : List Frag → Option Int
  | [] => some next
  | q :: l => if q.off ≠ next then none else scan (next + q.len) l

/-- A datagram as it is handed on. -/
structure Packet where
  hl : BitVec 4
  len : Int
  data : List UInt8
  deriving DecidableEq, Repr

/-- The datagram that a queue makes, if it is complete. -/
def complete (q : List Frag) : Option Packet :=
  match q.head?, q.getLast?, scan 0 q with
  | some front, some last, some next =>
    if last.mff then none else some ⟨front.hl, short next, (q.map Frag.data).flatten⟩
  | _, _, _ => none

/-- `ip_reass`: the queue with the fragment, and the datagram when it is complete. A queue
that is not there is empty. -/
def ipReass (q : List Frag) (f : Frag) : List Frag × Option Packet :=
  match frags.insert q f with
  | none => (q, none)
  | some q =>
    match complete q with
    | none => (q, none)
    | some p => ([], some p)

/-- `struct ipq` -/
structure Ipq where
  key : Key
  frags : List Frag
  deriving DecidableEq, Repr

/-- The queue of a datagram. -/
def queue (s : List Ipq) (k : Key) : List Frag := ((s.find? fun fp => fp.key = k).map Ipq.frags).getD []

/-- A queue is filled, made or taken out. -/
def setQueue (s : List Ipq) (k : Key) (q : List Frag) : List Ipq :=
  if q = [] then s.filter fun fp => fp.key ≠ k
  else if s.any fun fp => fp.key = k then s.map fun fp => if fp.key = k then { fp with frags := q } else fp
  else ⟨k, q⟩ :: s

/-- The fragment that `ipintr` makes of a datagram. -/
def Ip.frag (ip : Ip) : Frag :=
  ⟨ip.hl, (ip.off <<< 3).toInt, short (ip.len - hlen ip.hl), ip.off &&& IP_MF ≠ 0, ip.data⟩

/-- `ipintr` from `ours` on: the queues, and what goes to the protocol with which header length. -/
def ours (s : List Ipq) (ip : Ip) : List Ipq × Option (Nat × Packet) :=
  if ip.off &&& ~~~IP_DF ≠ 0 then
    if ip.frag.mff || ip.frag.off ≠ 0 then
      let r := ipReass (queue s ip.key) ip.frag
      (setQueue s ip.key r.1, r.2.map fun p => (hlen ip.hl, p))
    else (setQueue s ip.key [], some (hlen ip.hl, ⟨ip.hl, ip.frag.len, ip.data⟩))
  else (s, some (hlen ip.hl, ⟨ip.hl, ip.frag.len, ip.data⟩))

/-- The queues after the datagrams have arrived. -/
def arrived (ips : List Ip) : List Ipq := ips.foldl (fun s ip => (ours s ip).1) []

/-! ## The queues -/

section Queues
variable {s : List Ipq} {k k' : Key} {q : List Frag}

theorem queue_setQueue_self : queue (setQueue s k q) k = q := by
  unfold setQueue
  split_ifs with hq hs
  · have : (s.filter fun fp => fp.key ≠ k).find? (fun fp => fp.key = k) = none := by
      rw [List.find?_eq_none]
      intro x hx
      simpa using (List.mem_filter.1 hx).2
    rw [queue, this, hq]
    rfl
  · induction s with
    | nil => cases hs
    | cons fp s ih =>
      by_cases hfp : fp.key = k
      · simp [queue, hfp]
      · have hs' : (s.any fun fp => fp.key = k) = true := by simpa [hfp] using hs
        have := ih hs'
        simpa [queue, hfp] using this
  · simp [queue]

theorem queue_setQueue_ne (h : k' ≠ k) : queue (setQueue s k q) k' = queue s k' := by
  unfold setQueue
  split_ifs with hq hs
  · clear hq
    induction s with
    | nil => rfl
    | cons fp s ih =>
      by_cases hfp : fp.key = k
      · have : fp.key ≠ k' := fun he => h (he ▸ hfp)
        simpa [queue, hfp, this, List.find?_cons, h.symm] using ih
      · by_cases hk : fp.key = k'
        · simp [queue, hk, h]
        · simpa [queue, hfp, hk] using ih
  · clear hs hq
    induction s with
    | nil => rfl
    | cons fp s ih =>
      by_cases hfp : fp.key = k
      · have : k ≠ k' := h.symm
        simpa [queue, hfp, this] using ih
      · by_cases hk : fp.key = k'
        · simp [queue, hk, h]
        · simpa [queue, hfp, hk] using ih
  · simp [queue, h.symm]

theorem queue_ours_ne {ip : Ip} (h : ip.key ≠ k) : queue (ours s ip).1 k = queue s k := by
  unfold ours
  split_ifs
  · exact queue_setQueue_ne h.symm
  · exact queue_setQueue_ne (q := []) h.symm
  · rfl

theorem arrived_append (ips : List Ip) (ip : Ip) : arrived (ips ++ [ip]) = (ours (arrived ips) ip).1 := by
  simp [arrived]

end Queues

/-! ## The fields of a header -/

section Header
variable (off : BitVec 16)

theorem off_toInt : (off <<< 3).toInt = short (8 * (off.toNat % 8192) : Nat) := by
  rw [BitVec.toInt_eq_toNat_cond, BitVec.toNat_shiftLeft, Nat.shiftLeft_eq]
  unfold short
  split_ifs <;> omega

theorem and_mf : off &&& IP_MF = 0 ↔ off.getLsbD 13 = false := by
  constructor
  · intro h
    simpa [IP_MF] using congrArg (·.getLsbD 13) h
  · intro h
    ext i hi
    interval_cases i <;> simp_all [IP_MF, BitVec.getLsbD_eq_getElem]

theorem and_not_df : off &&& ~~~IP_DF = 0 ↔ off.toNat % 8192 = 0 ∧ off.getLsbD 13 = false ∧ off.getLsbD 15 = false := by
  have hlow : off.toNat % 8192 = 0 ↔ off.setWidth 13 = 0 := by
    rw [← BitVec.toNat_inj, BitVec.toNat_setWidth]
    simp
  rw [hlow]
  constructor
  · intro h
    have hbit : ∀ i, i ≠ 14 → off.getLsbD i = false := by
      intro i hi
      by_cases hlt : i < 16
      · have hi := congrArg (·.getLsbD i) h
        simp only [IP_DF, BitVec.getLsbD_and, BitVec.getLsbD_not] at hi
        interval_cases i <;> simp_all
      · exact BitVec.getLsbD_of_ge off i (by omega)
    refine ⟨?_, hbit 13 (by decide), hbit 15 (by decide)⟩
    ext i hi
    rw [BitVec.getElem_setWidth, hbit i (by omega)]
    simp
  · rintro ⟨h, h₁₃, h₁₅⟩
    ext i hi
    have hbit : i < 13 → off.getLsbD i = false := by
      intro hlt
      have := congrArg (·.getLsbD i) h
      simpa [hlt] using this
    interval_cases i <;> simp_all [IP_DF, BitVec.getLsbD_eq_getElem]

end Header

/-! ## Exactness -/

/-- Where a fragment starts in its datagram. -/
def Ip.start (ip : Ip) : Nat := 8 * (ip.off.toNat % 8192)

/-- Where a fragment ends in its datagram. -/
def Ip.stop (ip : Ip) : Nat := ip.start + ip.data.length

/-- The datagram is a fragment of `D`. -/
structure FragOf (D : List UInt8) (ip : Ip) : Prop where
  stop_le : ip.stop ≤ D.length
  data_eq : ip.data = (D.drop ip.start).take ip.data.length
  mf_iff : ip.off.getLsbD 13 = false ↔ ip.stop = D.length
  reserved : ip.off.getLsbD 15 = false
  len_eq : ip.len = short (hlen ip.hl + ip.data.length)

/-- The byte `i` of the datagram `k` is in a fragment that has arrived. -/
def received (k : Key) (ips : List Ip) (i : Nat) : Prop := ∃ ip ∈ ips, ip.key = k ∧ ip.start ≤ i ∧ i < ip.stop

/-- All of the datagram has arrived. -/
def Complete (D : List UInt8) (k : Key) (ips : List Ip) : Prop := ∀ i < D.length, received k ips i

/-- The queue has each byte received once, in order. -/
structure QueueOk (D : List UInt8) (k : Key) (ips : List Ip) (q : List Frag) : Prop where
  sorted : q.Pairwise fun a b => a.off + a.len ≤ b.off
  bytes : ∀ f ∈ q, 0 ≤ f.off ∧ 0 ≤ f.len ∧ f.data = (D.drop f.off.toNat).take f.len.toNat
  received_iff : ∀ i : Nat, (∃ f ∈ q, f.off ≤ i ∧ i < f.off + f.len) ↔ received k ips i

/-- Whatever has arrived, as long as it does not have all of `D` the queue is right, and the next fragment
makes `D` whole exactly if nothing is missing any more. -/
def Exact (D : List UInt8) : Prop :=
  ∀ k ips, (∀ ip ∈ ips, ip.key = k → FragOf D ip) → ¬Complete D k ips →
    QueueOk D k ips (queue (arrived ips) k) ∧ ∀ ip, ip.key = k → FragOf D ip →
      (Complete D k (ips ++ [ip]) →
        (ours (arrived ips) ip).2.map (fun d => (d.2.data, d.2.len)) = some (D, (D.length : Int))) ∧
      (¬Complete D k (ips ++ [ip]) → (ours (arrived ips) ip).2 = none)

section Exactness
variable {D : List UInt8}

/-- The fragment has bytes of `D` and says whether it is the last. -/
structure Piece (D : List UInt8) (f : Frag) : Prop where
  off_nonneg : 0 ≤ f.off
  len_nonneg : 0 ≤ f.len
  le : f.off + f.len ≤ D.length
  data_eq : f.data = (D.drop f.off.toNat).take f.len.toNat
  mff_iff : f.mff = false ↔ f.off + f.len = D.length

/-- The place behind a fragment. -/
def Frag.stop (f : Frag) : Int := f.off + f.len

theorem Piece.adj {f : Frag} (h : Piece D f) (hD : D.length ≤ 32767) {i : Int} (hi : 0 < i) (hlt : i < f.len) :
    Piece D (f.adj i) ∧ (f.adj i).off = f.off + i ∧ (f.adj i).stop = f.stop := by
  have h₁ := h.off_nonneg
  have h₂ := h.le
  have hoff : (f.adj i).off = f.off + i := short_eq (by omega) (by omega)
  have hlen : (f.adj i).len = f.len - i := short_eq (by omega) (by omega)
  have hstop : (f.adj i).stop = f.stop := by
    rw [Frag.stop, Frag.stop, hoff, hlen]
    omega
  refine ⟨⟨by omega, by omega, ?_, ?_, ?_⟩, hoff, hstop⟩
  · rw [Frag.stop, Frag.stop] at hstop
    omega
  · rw [hoff, hlen]
    show f.data.drop i.toNat = _
    rw [h.data_eq, List.drop_take, List.drop_drop]
    congr 2
    · omega
    · omega
  · rw [Frag.stop, Frag.stop] at hstop
    rw [hstop]
    exact h.mff_iff

theorem placed (hD : D.length ≤ 32767) : Placed frags (Piece D) Frag.off Frag.stop where
  le := fun h => by have := h.len_nonneg; unfold Frag.stop; omega
  after_iff := fun _ _ => by simp [frags]
  reach_eq := fun _ _ => rfl
  len_eq := fun {a} _ => by show a.len = a.off + a.len - a.off; omega
  cut := fun {a i} h hi hlt => h.adj hD hi (by unfold Frag.stop at hlt; omega)

/-- A scan that ends has found every byte up to its end. -/
theorem scan_some {q : List Frag} (hq : InOrder (Piece D) Frag.off Frag.stop q) {next t : Int} (hnext : 0 ≤ next)
    (h : scan next q = some t) : next ≤ t ∧ (∀ i, next ≤ i → i < t → covers Frag.off Frag.stop q i) ∧
      (∀ f, q.getLast? = some f → f.stop = t) ∧
      (q.map Frag.data).flatten = (D.drop next.toNat).take (t - next).toNat := by
  induction q generalizing next with
  | nil =>
    obtain rfl := Option.some.inj h
    refine ⟨Int.le_refl _, fun i h₁ h₂ => by omega, by simp, by simp⟩
  | cons f q ih =>
    obtain ⟨hf, hfq, hq⟩ := inOrder_cons.1 hq
    rw [scan] at h
    split_ifs at h with hoff
    have hoff := not_not.1 hoff
    have hlen := hf.len_nonneg
    have hstop : f.stop = next + f.len := by rw [Frag.stop, hoff]
    obtain ⟨hle, hcov, hlast, hdata⟩ := ih hq (by omega) h
    refine ⟨by omega, fun i h₁ h₂ => ?_, fun g hg => ?_, ?_⟩
    · rw [covers_cons]
      by_cases hi : i < f.stop
      · exact .inl ⟨by omega, hi⟩
      · exact .inr (hcov i (by omega) h₂)
    · cases q with
      | nil =>
        obtain rfl := Option.some.inj hg
        obtain rfl := Option.some.inj h
        exact hstop
      | cons g' q => exact hlast g (by simpa [List.getLast?_cons_cons] using hg)
    · rw [List.map_cons, List.flatten_cons, hdata, hf.data_eq, hoff]
      have : (D.drop (next + f.len).toNat) = (D.drop next.toNat).drop f.len.toNat := by
        rw [List.drop_drop]
        congr 1
        omega
      rw [this, ← List.take_add]
      congr 1
      omega

/-- A queue that covers the rest of the datagram is scanned to its end. -/
theorem scan_of_covers {q : List Frag} (hq : InOrder (Piece D) Frag.off Frag.stop q) {next : Int} (hn : next ≤ D.length)
    (hlo : ∀ f ∈ q, next ≤ f.off) (hcov : ∀ i, next ≤ i → i < D.length → covers Frag.off Frag.stop q i) :
    scan next q = some (D.length : Int) := by
  induction q generalizing next with
  | nil =>
    have : next = D.length := by
      by_contra hne
      exact covers_nil (hcov next (Int.le_refl _) (by omega))
    rw [scan, this]
  | cons f q ih =>
    obtain ⟨hf, hfq, hq⟩ := inOrder_cons.1 hq
    have hle := hf.le
    have hlen := hf.len_nonneg
    have hstop : f.stop = f.off + f.len := rfl
    have hoff : f.off = next := by
      have hlo' := hlo f List.mem_cons_self
      by_contra hne
      obtain ⟨g, hg, hg₁, hg₂⟩ := hcov next (Int.le_refl _) (by omega)
      rcases List.mem_cons.1 hg with rfl | hg
      · omega
      · have := hfq g hg
        omega
    rw [scan, if_neg (not_not.2 hoff)]
    refine ih hq (by omega) (fun g hg => ?_) fun i h₁ h₂ => ?_
    · have := hfq g hg
      omega
    · rcases covers_cons.1 (hcov i (by omega) h₂) with h | h
      · omega
      · exact h

/-- The queue has the bytes that the set `R` has. -/
structure QInv (D : List UInt8) (R : Nat → Prop) (q : List Frag) : Prop where
  order : InOrder (Piece D) Frag.off Frag.stop q
  covers_iff : ∀ i : Nat, covers Frag.off Frag.stop q i ↔ R i

theorem FragOf.piece {ip : Ip} (h : FragOf D ip) (hD : D.length ≤ 32767) :
    Piece D ip.frag ∧ ip.frag.off = ip.start ∧ ip.frag.stop = ip.stop := by
  have hstop := h.stop_le
  have hlt : ip.start ≤ ip.stop := Nat.le_add_right _ _
  have hoff : ip.frag.off = ip.start := (off_toInt ip.off).trans (short_eq (by omega) (by unfold Ip.start at *; omega))
  have hlen : ip.frag.len = ip.data.length := by
    show short (ip.len - hlen ip.hl) = _
    have : ip.data.length ≤ 32767 := by unfold Ip.stop at *; omega
    rw [h.len_eq]
    unfold short
    omega
  have hfstop : ip.frag.stop = ip.stop := by
    rw [Frag.stop, hoff, hlen, Ip.stop]
    omega
  refine ⟨⟨by omega, by omega, ?_, ?_, ?_⟩, hoff, hfstop⟩
  · rw [Frag.stop] at hfstop
    omega
  · rw [hoff, hlen, Int.toNat_natCast, Int.toNat_natCast]
    exact h.data_eq
  · have hmf : ip.frag.mff = false ↔ ip.off.getLsbD 13 = false := by
      rw [← and_mf]
      simp [Ip.frag]
    rw [Frag.stop] at hfstop
    rw [hmf, h.mf_iff, hfstop]
    omega

variable {R : Nat → Prop} {q q' : List Frag} {f : Frag}

theorem QInv.insert (h : QInv D R q) (hD : D.length ≤ 32767) (hf : Piece D f) (hi : frags.insert q f = some q') :
    QInv D (fun i => R i ∨ f.off ≤ i ∧ i < f.stop) q' := by
  obtain ⟨hq', hcov⟩ := insert_some (placed hD) h.order hf hi
  exact ⟨hq', fun i => by rw [hcov, h.covers_iff]⟩

theorem QInv.drop (h : QInv D R q) (hD : D.length ≤ 32767) (hf : Piece D f) (hi : frags.insert q f = none) {i : Nat}
    (hfi : f.off ≤ i ∧ i < f.stop) : R i := by
  obtain ⟨p, hp, h₁, -, h₃⟩ := insert_none (placed hD) h.order hf hi
  exact (h.covers_iff i).1 ⟨p, hp, by omega, by omega⟩

/-- The queue makes a datagram exactly if it has every byte, and that is the right one. -/
theorem QInv.complete (h : QInv D R q) (hD : D.length ≤ 32767) (hne : q ≠ []) :
    ((∀ i < D.length, R i) → (complete q).map (fun p => (p.data, p.len)) = some (D, (D.length : Int))) ∧
      ((∃ p, complete q = some p) → ∀ i < D.length, R i) := by
  obtain ⟨front, hfront⟩ : ∃ a, q.head? = some a := ⟨q.head hne, List.head?_eq_some_head hne⟩
  obtain ⟨last, hlast⟩ : ∃ a, q.getLast? = some a := ⟨q.getLast hne, List.getLast?_eq_some_getLast hne⟩
  have hPlast := h.order.all last (List.mem_of_getLast? hlast)
  constructor
  · intro hall
    have hscan : scan 0 q = some (D.length : Int) := by
      refine scan_of_covers h.order (by omega) (fun f hf => (h.order.all f hf).off_nonneg) fun i h₁ h₂ => ?_
      obtain ⟨n, rfl⟩ := Int.eq_ofNat_of_zero_le h₁
      exact (h.covers_iff n).2 (hall n (by omega))
    obtain ⟨-, -, hstop, hdata⟩ := scan_some h.order (Int.le_refl 0) hscan
    have hmff : last.mff = false := hPlast.mff_iff.2 (hstop last hlast)
    simp only [IpReass.complete, hfront, hlast, hscan, hmff, Bool.false_eq_true, if_false, Option.map_some,
      Option.some.injEq, Prod.mk.injEq]
    refine ⟨?_, short_eq (by omega) (by omega)⟩
    rw [hdata]
    simp
  · rintro ⟨p, hp⟩ i hi
    cases hscan : scan 0 q with
    | none => simp [IpReass.complete, hfront, hlast, hscan] at hp
    | some t =>
      obtain ⟨-, hcov, hstop, -⟩ := scan_some h.order (Int.le_refl 0) hscan
      simp only [IpReass.complete, hfront, hlast, hscan] at hp
      split_ifs at hp with hmff
      have ht : t = D.length := by
        rw [← hstop last hlast]
        exact hPlast.mff_iff.1 (by simpa using hmff)
      exact (h.covers_iff i).1 (hcov i (by omega) (by omega))

theorem insert_ne_nil (h : frags.insert q f = some q') : q' ≠ [] := by
  obtain ⟨g, -, rfl⟩ := Option.map_eq_some_iff.1 h
  simp

/-- What `ip_reass` does with the next piece of a datagram that is not complete. -/
theorem QInv.reass (h : QInv D R q) (hD : D.length ≤ 32767) (hf : Piece D f) (hR : ¬∀ i < D.length, R i) :
    ((∀ i < D.length, R i ∨ f.off ≤ i ∧ i < f.stop) →
      (ipReass q f).2.map (fun p => (p.data, p.len)) = some (D, (D.length : Int))) ∧
    ((¬∀ i < D.length, R i ∨ f.off ≤ i ∧ i < f.stop) →
      (ipReass q f).2 = none ∧ QInv D (fun i => R i ∨ f.off ≤ i ∧ i < f.stop) (ipReass q f).1) := by
  unfold ipReass
  cases hi : frags.insert q f with
  | none =>
    have hsame : ∀ i : Nat, (R i ∨ f.off ≤ i ∧ i < f.stop) ↔ R i :=
      fun i => ⟨fun hor => hor.elim id (h.drop hD hf hi), .inl⟩
    refine ⟨fun hall => absurd (fun i hlt => (hsame i).1 (hall i hlt)) hR, fun _ => ⟨rfl, h.order, fun i => ?_⟩⟩
    rw [hsame]
    exact h.covers_iff i
  | some q' =>
    have h' := h.insert hD hf hi
    obtain ⟨hyes, hno⟩ := h'.complete hD (insert_ne_nil hi)
    simp only
    constructor
    · intro hall
      have := hyes hall
      revert this
      cases IpReass.complete q' <;> simp
    · intro hmiss
      cases hc : IpReass.complete q' with
      | none => exact ⟨rfl, h'⟩
      | some p => exact absurd (hno ⟨p, hc⟩) hmiss

theorem received_append {k : Key} {ips : List Ip} {ip : Ip} {i : Nat} :
    received k (ips ++ [ip]) i ↔ received k ips i ∨ ip.key = k ∧ ip.start ≤ i ∧ i < ip.stop := by
  simp [received, or_and_right, exists_or]

theorem FragOf.whole {ip : Ip} (h : FragOf D ip) (hw : ip.off &&& ~~~IP_DF = 0) :
    ip.start = 0 ∧ ip.stop = D.length ∧ ip.data = D := by
  obtain ⟨hoff, hmf, -⟩ := (and_not_df ip.off).1 hw
  have hstart : ip.start = 0 := by rw [Ip.start, hoff]
  have hstop := h.mf_iff.1 hmf
  refine ⟨hstart, hstop, ?_⟩
  have hlen : ip.data.length = D.length := by rw [← hstop, Ip.stop, hstart, Nat.zero_add]
  rw [h.data_eq, hstart, hlen]
  simp

theorem FragOf.fragment {ip : Ip} (h : FragOf D ip) (hD : D.length ≤ 32767) (hw : ¬ip.off &&& ~~~IP_DF = 0) :
    (ip.frag.mff || ip.frag.off ≠ 0) = true := by
  by_contra hn
  simp only [Bool.or_eq_true, decide_eq_true_eq, not_or, Bool.not_eq_true, ne_eq, not_not] at hn
  have hstart : ip.start = 0 := by
    have := (h.piece hD).2.1
    omega
  refine hw ((and_not_df ip.off).2 ⟨by unfold Ip.start at hstart; omega, ?_, h.reserved⟩)
  rw [← and_mf]
  simpa [Ip.frag] using hn.1

variable {k : Key} {ips : List Ip} {ip : Ip}

theorem received_key (ips : List Ip) (hk : ip.key = k) (h : FragOf D ip) (hD : D.length ≤ 32767) (i : Nat) :
    received k (ips ++ [ip]) i ↔ received k ips i ∨ ip.frag.off ≤ i ∧ i < ip.frag.stop := by
  obtain ⟨-, hoff, hstop⟩ := h.piece hD
  rw [received_append, hoff, hstop]
  simp [hk]

/-- The queue of a datagram that is not complete has what has arrived of it. -/
theorem arrived_inv (hD : D.length ≤ 32767) (hfr : ∀ ip ∈ ips, ip.key = k → FragOf D ip) (hc : ¬Complete D k ips) :
    QInv D (received k ips) (queue (arrived ips) k) := by
  induction ips using List.reverseRecOn with
  | nil => exact ⟨InOrder.nil, fun i => by simp [arrived, queue, received]⟩
  | append_singleton ips ip ih =>
    have hc' : ¬Complete D k ips := fun hall => hc fun i hi => received_append.2 (.inl (hall i hi))
    have hinv := ih (fun g hg => hfr g (List.mem_append_left _ hg)) hc'
    rw [arrived_append]
    by_cases hk : ip.key = k
    · have hip := hfr ip (by simp) hk
      have hrec := received_key ips hk hip hD
      by_cases hw : ip.off &&& ~~~IP_DF = 0
      · obtain ⟨hstart, hstop, -⟩ := hip.whole hw
        exact absurd (fun i hi => received_append.2 (.inr ⟨hk, by omega, by omega⟩)) hc
      · have hstep := (hinv.reass hD (hip.piece hD).1 hc').2 fun hall => hc fun i hi => (hrec i).2 (hall i hi)
        rw [ours, if_pos hw, if_pos (hip.fragment hD hw), hk]
        simp only [queue_setQueue_self]
        exact ⟨hstep.2.order, fun i => (hstep.2.covers_iff i).trans (hrec i).symm⟩
    · rw [queue_ours_ne hk]
      refine ⟨hinv.order, fun i => (hinv.covers_iff i).trans ?_⟩
      rw [received_append]
      simp [hk]

/-- Reassembly of a datagram whose length is a short is exact. -/
theorem exact_of_short (hD : D.length ≤ 32767) : Exact D := by
  intro k ips hfr hc
  have hinv := arrived_inv hD hfr hc
  refine ⟨⟨hinv.order.apart, fun f hf => ?_, hinv.covers_iff⟩, fun ip hk hip => ?_⟩
  · have := hinv.order.all f hf
    exact ⟨this.off_nonneg, this.len_nonneg, this.data_eq⟩
  · have hrec := received_key ips hk hip hD
    by_cases hw : ip.off &&& ~~~IP_DF = 0
    · obtain ⟨hstart, hstop, hdata⟩ := hip.whole hw
      have hlen := (hip.piece hD).2.2
      rw [ours, if_neg (not_not.2 hw)]
      constructor
      · intro _
        simp only [Option.map_some, hdata, Option.some.injEq, Prod.mk.injEq, true_and]
        rw [Frag.stop, (hip.piece hD).2.1] at hlen
        omega
      · intro hno
        exact absurd (fun i hi => received_append.2 (.inr ⟨hk, by omega, by omega⟩)) hno
    · obtain ⟨hyes, hno⟩ := hinv.reass hD (hip.piece hD).1 hc
      rw [ours, if_pos hw, if_pos (hip.fragment hD hw), hk]
      constructor
      · intro hall
        have := hyes fun i hi => (hrec i).1 (hall i hi)
        rw [Option.map_map]
        exact this
      · intro hmiss
        have := (hno fun hall => hmiss fun i hi => (hrec i).2 (hall i hi)).1
        simp only [this, Option.map_none]

/-! ## Long datagrams -/

theorem complete_len {p : Packet} (h : complete q = some p) : p.len ≤ 32767 := by
  unfold complete at h
  split at h
  · split_ifs at h
    obtain rfl := Option.some.inj h
    exact (short_range _).2
  · cases h

theorem ours_len {s : List Ipq} {d : Nat × Packet} (h : (ours s ip).2 = some d) : d.2.len ≤ 32767 := by
  unfold ours at h
  split_ifs at h
  · obtain ⟨p, hp, rfl⟩ := Option.map_eq_some_iff.1 h
    unfold ipReass at hp
    cases hi : frags.insert (queue s ip.key) ip.frag with
    | none => simp [hi] at hp
    | some q =>
      simp only [hi] at hp
      cases hc : complete q with
      | none => simp [hc] at hp
      | some p' =>
        simp only [hc, Option.some.injEq] at hp
        exact hp ▸ complete_len hc
  · obtain rfl := Option.some.inj h
    exact (short_range _).2
  · obtain rfl := Option.some.inj h
    exact (short_range _).2

/-- The `j`-th fragment of 16384 bytes. -/
def chunk (D : List UInt8) (k : Key) (j : Nat) : Ip :=
  let data := (D.drop (16384 * j)).take 16384
  ⟨5, short (20 + data.length), BitVec.ofNat 16 (2048 * j + if 16384 * (j + 1) < D.length then 8192 else 0), k, data⟩

theorem chunk_length (j : Nat) : (chunk D k j).data.length = min 16384 (D.length - 16384 * j) := by
  simp [chunk]

theorem chunk_start {j : Nat} (hj : j < 4) : (chunk D k j).start = 16384 * j := by
  simp only [Ip.start, chunk, BitVec.toNat_ofNat]
  split_ifs <;> omega

theorem chunk_bits {j : Nat} (hj : j < 4) : (chunk D k j).off.getLsbD 15 = false ∧
    ((chunk D k j).off.getLsbD 13 = false ↔ ¬16384 * (j + 1) < D.length) := by
  simp only [chunk]
  split_ifs with h
  · simp only [h, not_true_eq_false, iff_false]
    interval_cases j <;> decide
  · simp only [h, not_false_eq_true, iff_true]
    interval_cases j <;> decide

theorem fragOf_chunk {j : Nat} (hj : j < 4) (hle : 16384 * j ≤ D.length) : FragOf D (chunk D k j) := by
  have hstart := chunk_start (D := D) (k := k) hj
  have hlen := chunk_length (D := D) (k := k) j
  obtain ⟨h₁₅, h₁₃⟩ := chunk_bits (D := D) (k := k) hj
  refine ⟨?_, ?_, ?_, h₁₅, rfl⟩
  · rw [Ip.stop, hstart, hlen]
    omega
  · rw [hstart]
    show (D.drop (16384 * j)).take 16384 = (D.drop (16384 * j)).take ((D.drop (16384 * j)).take 16384).length
    rw [List.length_take, List.take_eq_take_iff]
    simp
  · rw [h₁₃, Ip.stop, hstart, hlen]
    omega

/-- The fragments before the last do not reach the end of a long datagram, and all of them have it whole. -/
theorem chunks_complete (hlo : 32768 ≤ D.length) (hhi : D.length ≤ 65535 - 20) :
    ∃ n < 4, 16384 * n ≤ D.length ∧ ¬Complete D k ((List.range n).map (chunk D k)) ∧
      Complete D k ((List.range n).map (chunk D k) ++ [chunk D k n]) := by
  refine ⟨(D.length - 1) / 16384, by omega, by omega, fun hall => ?_, fun i hi => ?_⟩
  · obtain ⟨ip, hip, -, -, hlast⟩ := hall (D.length - 1) (by omega)
    obtain ⟨j, hj, rfl⟩ := List.mem_map.1 hip
    have hj := List.mem_range.1 hj
    rw [Ip.stop, chunk_start (by omega), chunk_length] at hlast
    omega
  · have hj : i / 16384 < (D.length - 1) / 16384 ∨ i / 16384 = (D.length - 1) / 16384 := by omega
    refine ⟨chunk D k (i / 16384), ?_, rfl, ?_, ?_⟩
    · rcases hj with hj | hj
      · exact List.mem_append_left _ (List.mem_map_of_mem (List.mem_range.2 hj))
      · rw [hj]
        simp
    · rw [chunk_start (by omega)]
      omega
    · rw [Ip.stop, chunk_start (by omega), chunk_length]
      omega

/-- A datagram whose length is no short is never put together right. -/
theorem not_exact_of_long (hlo : 32768 ≤ D.length) (hhi : D.length ≤ 65535 - 20) : ¬Exact D := by
  intro hex
  obtain ⟨n, hn, hle, hno, hyes⟩ := chunks_complete (k := ⟨0, 0, 0, 0⟩) hlo hhi
  have hfr : ∀ ip ∈ (List.range n).map (chunk D ⟨0, 0, 0, 0⟩), ip.key = ⟨0, 0, 0, 0⟩ → FragOf D ip := by
    intro ip hip _
    obtain ⟨j, hj, rfl⟩ := List.mem_map.1 hip
    have := List.mem_range.1 hj
    exact fragOf_chunk (by omega) (by omega)
  have hout := ((hex _ _ hfr hno).2 _ rfl (fragOf_chunk hn hle)).1 hyes
  obtain ⟨d, hd, hdl⟩ := Option.map_eq_some_iff.1 hout
  have hlen := ours_len hd
  have hlen' : d.2.len = D.length := congrArg Prod.snd hdl
  omega

end Exactness

end BsdKernel.IpReass
