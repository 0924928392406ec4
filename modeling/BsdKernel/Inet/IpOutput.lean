import BsdKernel.Inet.IpReass
import Mathlib.Data.List.Nodup
/-!
# Fragmentation

The end of `ip_output` and `ip_optcopy` of `inet/ip_output.c`: a datagram that fits the
interface goes out as it is; a larger one is cut into fragments, the first of which is
the datagram itself, trimmed, and each of the others gets a copy of the header with
the options that are to be copied.

`fragments_iff`: the fragments tile the datagram, and reassembly in any order gives it
back, exactly if every offset fits its 13 bits and a datagram that was not a fragment
itself is so short that `ip_reass` can count its bytes in a short.
-/

namespace BsdKernel.IpOutput

open BsdKernel.Lib BsdKernel.IpReass

variable {os : List Opt}

/-! ## Options -/

def IPOPT_EOL : UInt8 := 0
def IPOPT_NOP : UInt8 := 1

/-- `IPOPT_COPIED` -/
def ipoptCopied (opt : UInt8) : Bool := opt &&& 0x80 ≠ 0

/-- The loop of `ip_optcopy`, from `cp` on, and what goes to `dp`. -/
def optLoop : Nat → List UInt8 → List UInt8
  | 0, _ => []
  | _, [] => []
  | fuel + 1, opt :: rest =>
    if opt = IPOPT_EOL then []
    else
      let optlen := if opt = IPOPT_NOP then 1 else (rest.headD 0).toNat
      let optlen := min optlen (rest.length + 1)
      (if ipoptCopied opt then (opt :: rest).take optlen else []) ++ optLoop fuel ((opt :: rest).drop optlen)

/-- `ip_optcopy`; the loop ends when an option has a length of 0 by its bound only. -/
def ipOptcopy (opts : List UInt8) : List UInt8 :=
  let copied := optLoop opts.length opts
  copied ++ List.replicate ((4 - copied.length % 4) % 4) IPOPT_EOL

/-! ## Datagrams -/

/-- A datagram that `ip_output` is to send, with `ip_off` in host order. -/
structure Datagram where
  tos : BitVec 8
  ttl : BitVec 8
  key : Key
  off : BitVec 16
  opts : List UInt8
  data : List UInt8
  opts_ok : opts.length % 4 = 0 ∧ opts.length ≤ 40
  short : 20 + opts.length + data.length ≤ 65535

namespace Datagram

/-- `hlen` -/
def hlen (ip : Datagram) : Nat := 20 + ip.opts.length

/-- `(u_short)ip->ip_len` -/
def len (ip : Datagram) : Nat := ip.hlen + ip.data.length

end Datagram

/-- What is given to the interface; `len` and `off` are in network order there. -/
structure Sent where
  hl : Nat
  len : Nat
  off : BitVec 16
  tos : BitVec 8
  ttl : BitVec 8
  key : Key
  opts : List UInt8
  data : List UInt8
  deriving DecidableEq, Repr

/-- A datagram that is not cut. -/
def Datagram.whole (ip : Datagram) : Sent :=
  ⟨ip.hlen / 4, ip.len, ip.off, ip.tos, ip.ttl, ip.key, ip.opts, ip.data⟩

/-- `ip_off` of a fragment but the first; `more` if it is not the last. -/
def fragOff (ip : Datagram) (off : Nat) (more : Bool) : BitVec 16 :=
  let o := BitVec.ofNat 16 ((off - ip.hlen) / 8) + (ip.off &&& ~~~IP_MF)
  let o := if ip.off &&& IP_MF ≠ 0 then o ||| IP_MF else o
  if more then o ||| IP_MF else o

/-- The loop over the fragments behind the first: `off` counts from the start of the header. -/
def fragLoop (ip : Datagram) : Nat → Nat → Nat → List Sent
  | 0, _, _ => []
  | fuel + 1, len, off =>
    if off < ip.len then
      let opts := if ip.hlen > 20 then ipOptcopy ip.opts else []
      let mhlen := 20 + opts.length
      let last := off + len ≥ ip.len
      -- `len` is the length of the last fragment from here on
      let len := if last then ip.len - off else len
      ⟨mhlen / 4, len + mhlen, fragOff ip off (!last), ip.tos, ip.ttl, ip.key, opts,
        (ip.data.drop (off - ip.hlen)).take len⟩ :: fragLoop ip fuel len (off + len)
    else []

/-- The datagram trimmed to its first fragment. -/
def firstFrag (ip : Datagram) (len : Nat) : Sent :=
  ⟨ip.hlen / 4, ip.hlen + len, ip.off ||| IP_MF, ip.tos, ip.ttl, ip.key, ip.opts, ip.data.take len⟩

inductive Errno where
  | EMSGSIZE
  deriving DecidableEq, Repr

/-- `ip_output` from the test of the length on, with memory for every fragment. -/
def ipOutput (mtu : Nat) (ip : Datagram) : Except Errno (List Sent) :=
  if ip.len ≤ mtu then .ok [ip.whole]
  else if ip.off &&& IP_DF ≠ 0 then .error .EMSGSIZE
  else
    let len := (mtu - ip.hlen) / 8 * 8
    if len < 8 then .error .EMSGSIZE
    else .ok (firstFrag ip len :: fragLoop ip ip.len len (ip.hlen + len))

/-! ## What is to be shown -/

/-- An option: `IPOPT_NOP`, or a type with a length and data. -/
inductive Opt where
  | nop
  | some (type : UInt8) (data : List UInt8)
  deriving DecidableEq, Repr

namespace Opt

def bytes : Opt → List UInt8
  | .nop => [IPOPT_NOP]
  | .some type data => type :: UInt8.ofNat (data.length + 2) :: data

def Valid : Opt → Prop
  | .nop => True
  | .some type data => type ≠ IPOPT_EOL ∧ type ≠ IPOPT_NOP ∧ data.length + 2 ≤ 255

/-- The option is to be in every fragment. -/
def copied : Opt → Bool
  | .nop => ipoptCopied IPOPT_NOP
  | .some type _ => ipoptCopied type

end Opt

/-- The options `os` are those of a header: one after the other, to the end or to an `IPOPT_EOL`. -/
def Carries (opts : List UInt8) (os : List Opt) : Prop :=
  (∀ o ∈ os, o.Valid) ∧ ∃ tail : List UInt8, opts = os.flatMap Opt.bytes ++ tail ∧ (tail = [] ∨ tail.head? = some IPOPT_EOL)

/-- The fragments tile the datagram. -/
structure Tiles (mtu : Nat) (ip : Datagram) (os : List Opt) (fs : List Sent) : Prop where
  fits : ∀ f ∈ fs, f.len ≤ mtu
  header : ∀ f ∈ fs, 4 * f.hl = 20 + f.opts.length ∧ f.hl ≤ 15 ∧ f.len = 4 * f.hl + f.data.length
  same : ∀ f ∈ fs, f.tos = ip.tos ∧ f.ttl = ip.ttl ∧ f.key = ip.key
  eights : ∀ f ∈ fs.dropLast, f.data.length % 8 = 0
  contiguous : ∀ pre f post, fs = pre ++ f :: post →
    f.off.toNat % 8192 = ip.off.toNat % 8192 + (pre.flatMap Sent.data).length / 8
  bytes : fs.flatMap Sent.data = ip.data
  more : ∀ f ∈ fs.dropLast, f.off.getLsbD 13 = true
  last : ∀ f, fs.getLast? = some f → f.off.getLsbD 13 = ip.off.getLsbD 13
  first_opts : ∀ f, fs.head? = some f → f.opts = ip.opts
  rest_opts : ∀ f ∈ fs.tail, Carries f.opts (os.filter Opt.copied)

/-- A fragment as the receiver has it. -/
def Sent.received (f : Sent) : Ip := ⟨BitVec.ofNat 4 f.hl, IpReass.short f.len, f.off, f.key, f.data⟩

/-- In whatever order the fragments arrive, the last one makes the datagram whole. -/
def Reassembles (ip : Datagram) (fs : List Sent) : Prop :=
  ∀ init last, (init ++ [last]).Perm (fs.map Sent.received) →
    (ours (arrived init) last).2.map (fun d => (d.2.data, d.2.len)) = some (ip.data, (ip.data.length : Int))

/-- The data of a fragment but the last. -/
def room (mtu : Nat) (ip : Datagram) : Nat := (mtu - ip.hlen) / 8 * 8

/-- Every offset fits in 13 bits, and a datagram that was no fragment can be reassembled. -/
def Fits (mtu : Nat) (ip : Datagram) : Prop :=
  mtu < ip.len → ip.off.toNat % 8192 + (ip.data.length - 1) / room mtu ip * room mtu ip / 8 < 8192 ∧
    (ip.off = 0 → ip.data.length ≤ 32767)

/-! ## The options of a fragment -/

theorem optLoop_eq (hos : ∀ o ∈ os, o.Valid) {tail : List UInt8} (htail : tail = [] ∨ tail.head? = some IPOPT_EOL)
    {fuel : Nat} (hfuel : (os.flatMap Opt.bytes ++ tail).length ≤ fuel) :
    optLoop fuel (os.flatMap Opt.bytes ++ tail) = (os.filter Opt.copied).flatMap Opt.bytes := by
  induction os generalizing fuel with
  | nil =>
    rw [List.flatMap_nil, List.nil_append] at hfuel ⊢
    rcases htail with rfl | htail
    · cases fuel <;> rfl
    · obtain ⟨rest, rfl⟩ : ∃ rest, tail = IPOPT_EOL :: rest := by
        cases tail with
        | nil => cases htail
        | cons c rest => exact ⟨rest, by rw [Option.some.inj htail]⟩
      cases fuel with
      | zero => rfl
      | succ fuel => simp [optLoop]
  | cons o os ih =>
    have hrest : ∀ fuel : Nat, (os.flatMap Opt.bytes ++ tail).length ≤ fuel →
        optLoop fuel (os.flatMap Opt.bytes ++ tail) = (os.filter Opt.copied).flatMap Opt.bytes :=
      fun fuel h => ih (fun o' ho' => hos o' (List.mem_cons_of_mem _ ho')) h
    rw [List.flatMap_cons, List.append_assoc, List.length_append] at hfuel
    rw [List.flatMap_cons, List.append_assoc]
    cases o with
    | nop =>
      obtain ⟨fuel, rfl⟩ : ∃ f, fuel = f + 1 := ⟨fuel - 1, by simp [Opt.bytes] at hfuel; omega⟩
      have hr := hrest fuel (by simp [Opt.bytes] at hfuel ⊢; omega)
      have hone : ¬IPOPT_NOP = IPOPT_EOL := by decide
      have hcopied : ipoptCopied IPOPT_NOP = false := by decide
      simp [optLoop, Opt.bytes, Opt.copied, hone, hcopied, hr]
    | some type data =>
      obtain ⟨heol, hnop, hlen⟩ := hos _ List.mem_cons_self
      obtain ⟨fuel, rfl⟩ : ∃ f, fuel = f + 1 := ⟨fuel - 1, by simp [Opt.bytes] at hfuel; omega⟩
      have hr := hrest fuel (by simp [Opt.bytes] at hfuel ⊢; omega)
      have hnat : (UInt8.ofNat (data.length + 2)).toNat = data.length + 2 := by
        rw [UInt8.toNat_ofNat']
        omega
      set more := os.flatMap Opt.bytes ++ tail with hmore
      have hmin : min (data.length + 2) ((UInt8.ofNat (data.length + 2) :: (data ++ more)).length + 1) = data.length + 2 := by
        simp only [List.length_cons, List.length_append]
        omega
      have hbytes : (Opt.some type data).bytes ++ more = type :: UInt8.ofNat (data.length + 2) :: (data ++ more) := rfl
      have htake : (type :: UInt8.ofNat (data.length + 2) :: (data ++ more)).take (data.length + 2) =
          (Opt.some type data).bytes := by
        rw [← hbytes]
        exact List.take_left' rfl
      have hdrop : (type :: UInt8.ofNat (data.length + 2) :: (data ++ more)).drop (data.length + 2) = more := by
        rw [← hbytes]
        exact List.drop_left' rfl
      rw [hbytes, optLoop, if_neg heol]
      simp only [if_neg hnop, List.headD_cons, hnat, hmin, htake, hdrop, hr]
      cases hc : ipoptCopied type <;> simp [Opt.copied, hc]

theorem flatMap_filter_length (os : List Opt) :
    ((os.filter Opt.copied).flatMap Opt.bytes).length ≤ (os.flatMap Opt.bytes).length := by
  induction os with
  | nil => simp
  | cons o os ih =>
    rw [List.filter_cons]
    split
    · simp only [List.flatMap_cons, List.length_append]
      omega
    · rw [List.flatMap_cons, List.length_append]
      omega

/-- A fragment carries the options that are copied, padded to a multiple of four. -/
theorem ipOptcopy_spec {opts : List UInt8} (h : Carries opts os) (h4 : opts.length % 4 = 0) :
    Carries (ipOptcopy opts) (os.filter Opt.copied) ∧ (ipOptcopy opts).length % 4 = 0 ∧
      (ipOptcopy opts).length ≤ opts.length := by
  obtain ⟨hvalid, tail, hopts, htail⟩ := h
  have hloop : optLoop opts.length opts = (os.filter Opt.copied).flatMap Opt.bytes := by
    have := optLoop_eq hvalid htail (Nat.le_refl _)
    rwa [← hopts] at this
  have hle := flatMap_filter_length os
  have hlen : opts.length = (os.flatMap Opt.bytes).length + tail.length := by rw [hopts, List.length_append]
  unfold ipOptcopy
  dsimp only
  rw [hloop]
  refine ⟨⟨fun o ho => hvalid o (List.mem_filter.1 ho).1, _, rfl, ?_⟩, ?_, ?_⟩
  · rcases hpad : (4 - ((os.filter Opt.copied).flatMap Opt.bytes).length % 4) % 4 with _ | n
    · exact .inl rfl
    · exact .inr rfl
  · rw [List.length_append, List.length_replicate]
    omega
  · rw [List.length_append, List.length_replicate]
    omega

/-! ## The offset of a fragment -/

section Offset
variable (x : BitVec 16)

theorem low_or_mf : (x ||| IP_MF).toNat % 8192 = x.toNat % 8192 := by
  have h : (x ||| IP_MF).setWidth 13 = x.setWidth 13 := by
    rw [BitVec.setWidth_or]
    have : IP_MF.setWidth 13 = 0#13 := by decide
    rw [this, BitVec.or_zero]
  have hnat := congrArg BitVec.toNat h
  rwa [BitVec.toNat_setWidth, BitVec.toNat_setWidth] at hnat

theorem bit_or_mf (i : Nat) : (x ||| IP_MF).getLsbD i = (x.getLsbD i || decide (i = 13)) := by
  rw [BitVec.getLsbD_or]
  congr 1
  by_cases hi : i < 16
  · interval_cases i <;> decide
  · rw [BitVec.getLsbD_of_ge _ _ (by omega)]
    simp only [Bool.false_eq, decide_eq_false_iff_not]
    omega

theorem low_and_mf : (x &&& ~~~IP_MF).toNat % 8192 = x.toNat % 8192 := by
  have h : (x &&& ~~~IP_MF).setWidth 13 = x.setWidth 13 := by
    rw [BitVec.setWidth_and]
    have : (~~~IP_MF).setWidth 13 = BitVec.allOnes 13 := by decide
    rw [this, BitVec.and_allOnes]
  have hnat := congrArg BitVec.toNat h
  rwa [BitVec.toNat_setWidth, BitVec.toNat_setWidth] at hnat

theorem bit_and_mf (i : Nat) : (x &&& ~~~IP_MF).getLsbD i = (x.getLsbD i && decide (i ≠ 13)) := by
  rw [BitVec.getLsbD_and]
  by_cases hi : i < 16
  · congr 1
    interval_cases i <;> decide
  · rw [BitVec.getLsbD_of_ge x _ (by omega)]
    simp

theorem bit_eq (i : Nat) : x.getLsbD i = decide (x.toNat / 2 ^ i % 2 = 1) := by
  rw [← BitVec.testBit_toNat, Nat.testBit_eq_decide_div_mod_eq]

theorem add_offset (n : Nat) (h : x.toNat % 8192 + n < 8192) :
    (BitVec.ofNat 16 n + x).toNat % 8192 = x.toNat % 8192 + n ∧
      ∀ i, 13 ≤ i → (BitVec.ofNat 16 n + x).getLsbD i = x.getLsbD i := by
  have hsum : (BitVec.ofNat 16 n + x).toNat = n + x.toNat := by
    rw [BitVec.toNat_add, BitVec.toNat_ofNat]
    omega
  refine ⟨by omega, fun i hi => ?_⟩
  obtain ⟨k, rfl⟩ : ∃ k, i = 13 + k := ⟨i - 13, by omega⟩
  rw [bit_eq, bit_eq, hsum, Nat.pow_add, ← Nat.div_div_eq_div_mul, ← Nat.div_div_eq_div_mul]
  have : (n + x.toNat) / 2 ^ 13 = x.toNat / 2 ^ 13 := by omega
  rw [this]

end Offset

/-- The offset and the flags of a fragment while the offset fits. -/
theorem fragOff_spec (ip : Datagram) (off : Nat) (more : Bool)
    (h : ip.off.toNat % 8192 + (off - ip.hlen) / 8 < 8192) :
    (fragOff ip off more).toNat % 8192 = ip.off.toNat % 8192 + (off - ip.hlen) / 8 ∧
      (fragOff ip off more).getLsbD 13 = (ip.off.getLsbD 13 || more) ∧
      (fragOff ip off more).getLsbD 15 = ip.off.getLsbD 15 := by
  obtain ⟨hlow, hbits⟩ := add_offset (ip.off &&& ~~~IP_MF) ((off - ip.hlen) / 8) (by rw [low_and_mf]; exact h)
  rw [low_and_mf] at hlow
  have h13 := hbits 13 (by omega)
  have h15 := hbits 15 (by omega)
  rw [bit_and_mf] at h13 h15
  unfold fragOff
  dsimp only
  have hmf : ip.off &&& IP_MF ≠ 0 ↔ ip.off.getLsbD 13 = true := by rw [Ne, and_mf, Bool.not_eq_false]
  generalize BitVec.ofNat 16 ((off - ip.hlen) / 8) + (ip.off &&& ~~~IP_MF) = o at hlow h13 h15
  have h13 : o.getLsbD 13 = false := by simpa only [ne_eq, not_true_eq_false, decide_false, Bool.and_false] using h13
  have h15 : o.getLsbD 15 = ip.off.getLsbD 15 := h15.trans (Bool.and_true _)
  cases hm : ip.off.getLsbD 13 with
  | true =>
    rw [if_pos (hmf.2 hm)]
    cases more <;> simp only [low_or_mf, bit_or_mf, hlow, h15, Bool.false_eq_true, if_false, if_true, decide_true,
      Bool.or_true, Bool.or_false, true_and, Nat.reduceEqDiff, decide_false]
  | false =>
    have hclear : ¬ip.off &&& IP_MF ≠ 0 := by
      rw [hmf, hm]
      exact Bool.false_ne_true
    rw [if_neg hclear]
    cases more <;> simp only [low_or_mf, bit_or_mf, hlow, h13, h15, Bool.false_eq_true, if_false, if_true, decide_true,
      Bool.or_true, Bool.or_false, true_and, Nat.reduceEqDiff, decide_false]

/-! ## The fragments by their number -/

/-- The options of a fragment but the first. -/
def copiedOpts (ip : Datagram) : List UInt8 := if ip.hlen > 20 then ipOptcopy ip.opts else []

/-- The fragment `j`, of `n` bytes unless it is the last. -/
def frag (ip : Datagram) (n j : Nat) : Sent :=
  if j = 0 then firstFrag ip n
  else
    let data := (ip.data.drop (n * j)).take n
    ⟨(20 + (copiedOpts ip).length) / 4, data.length + (20 + (copiedOpts ip).length),
      fragOff ip (ip.hlen + n * j) (decide (n * j + n < ip.data.length)), ip.tos, ip.ttl, ip.key, copiedOpts ip, data⟩

/-- The number of fragments. -/
def count (ip : Datagram) (n : Nat) : Nat := (ip.data.length + n - 1) / n

section Count
variable (ip : Datagram) {n : Nat}

theorem lt_count (hn : 0 < n) (j : Nat) : j < count ip n ↔ n * j < ip.data.length := by
  unfold count
  rw [Nat.lt_iff_add_one_le, Nat.le_div_iff_mul_le hn, Nat.add_mul, Nat.mul_comm j n]
  omega

theorem length_le_count (hn : 0 < n) : ip.data.length ≤ n * count ip n := by
  have := (lt_count ip hn (count ip n)).not.1 (Nat.lt_irrefl _)
  omega

theorem fragLoop_end (fuel len off : Nat) (h : ip.len ≤ off) : fragLoop ip fuel len off = [] := by
  cases fuel with
  | zero => rfl
  | succ fuel => rw [fragLoop, if_neg (by omega)]

theorem fragLoop_eq (hn : 0 < n) {fuel j : Nat} (hj : j ≠ 0) (hfuel : count ip n ≤ fuel + j) :
    fragLoop ip fuel n (ip.hlen + n * j) = (List.range' j (count ip n - j)).map (frag ip n) := by
  induction fuel generalizing j with
  | zero =>
    have : count ip n - j = 0 := by omega
    rw [this]
    rfl
  | succ fuel ih =>
    by_cases hlt : n * j < ip.data.length
    · have hjk := (lt_count ip hn j).2 hlt
      obtain ⟨m, hm⟩ : ∃ m, count ip n - j = m + 1 := ⟨count ip n - j - 1, by omega⟩
      have hoff : ip.hlen + n * j - ip.hlen = n * j := by omega
      have hnext : n * (j + 1) = n * j + n := Nat.mul_succ n j
      rw [hm, List.range'_succ, List.map_cons, fragLoop, if_pos (by unfold Datagram.len; omega)]
      simp only [frag, if_neg hj, copiedOpts, hoff]
      by_cases hlast : ip.data.length ≤ n * j + n
      · -- the last one: the loop ends behind it
        have hlen : ip.len - (ip.hlen + n * j) = ip.data.length - n * j := by unfold Datagram.len; omega
        have hm0 : m = 0 := by
          have := (lt_count ip hn (j + 1)).not.2 (by omega)
          omega
        have hcond : ip.hlen + n * j + n ≥ ip.len := by unfold Datagram.len; omega
        have hdrop : (ip.data.drop (n * j)).length = ip.data.length - n * j := by rw [List.length_drop]
        rw [hm0, List.range'_zero, List.map_nil, fragLoop_end ip _ _ _ (by simp only [hcond, if_true]; omega)]
        have hmore : ¬n * j + n < ip.data.length := by omega
        simp only [hcond, if_true, hlen, decide_true, Bool.not_true, hmore, decide_false, hdrop,
          List.take_of_length_le (Nat.le_of_eq hdrop), List.take_of_length_le (by omega : (ip.data.drop (n * j)).length ≤ n)]
      · have hcond : ¬ip.hlen + n * j + n ≥ ip.len := by unfold Datagram.len; omega
        have hmore : n * j + n < ip.data.length := by omega
        have htail : ip.hlen + n * j + n = ip.hlen + n * (j + 1) := by omega
        have hrest := ih (j := j + 1) (by omega) (by omega)
        have hm' : count ip n - (j + 1) = m := by omega
        rw [hm'] at hrest
        simp only [hcond, if_false, decide_false, Bool.not_false, hmore, decide_true, List.length_take, List.length_drop]
        rw [htail, hrest, Nat.min_eq_left (by omega)]
    · have hle : count ip n ≤ j := by
        have := (lt_count ip hn j).not.2 hlt
        omega
      have hz : count ip n - j = 0 := by omega
      rw [hz, fragLoop_end ip _ _ _ (by unfold Datagram.len; omega)]
      rfl

theorem count_le (hn : 0 < n) : count ip n ≤ ip.data.length + 1 := by
  by_contra hlt
  have h := (lt_count ip hn (ip.data.length + 1)).1 (by omega)
  have := Nat.le_mul_of_pos_left (ip.data.length + 1) hn
  omega

theorem ipOutput_eq {mtu : Nat} (hlong : mtu < ip.len) (hdf : ip.off &&& IP_DF = 0) (hmtu : ip.hlen + 8 ≤ mtu) :
    ipOutput mtu ip = .ok ((List.range (count ip (room mtu ip))).map (frag ip (room mtu ip))) := by
  have hn : 8 ≤ room mtu ip := by unfold room; omega
  have hlen : ip.len = ip.hlen + ip.data.length := rfl
  have hle := count_le ip (n := room mtu ip) (by omega)
  have hpos : 0 < count ip (room mtu ip) := (lt_count ip (by omega) 0).2 (by omega)
  obtain ⟨k, hk⟩ : ∃ k, count ip (room mtu ip) = k + 1 := ⟨count ip (room mtu ip) - 1, by omega⟩
  have hhlen : 20 ≤ ip.hlen := Nat.le_add_right 20 _
  have hfuel : count ip (room mtu ip) ≤ ip.len + 1 := by omega
  have hloop := fragLoop_eq ip (by omega) Nat.one_ne_zero hfuel
  rw [Nat.mul_one, hk, Nat.add_sub_cancel] at hloop
  unfold ipOutput
  rw [if_neg (by omega), if_neg (by simpa using hdf)]
  simp only
  rw [if_neg (by change ¬room mtu ip < 8; omega)]
  change Except.ok (firstFrag ip (room mtu ip) :: fragLoop ip ip.len (room mtu ip) (ip.hlen + room mtu ip)) = _
  rw [hloop, hk, List.range_eq_range', List.range'_succ, List.map_cons]
  rfl

end Count

section Frag
variable {ip : Datagram} {n : Nat}

theorem frag_data (j : Nat) : (frag ip n j).data = (ip.data.drop (n * j)).take n := by
  unfold frag
  split
  · rename_i hj
    simp [firstFrag, hj]
  · rfl

theorem frag_data_length (j : Nat) : (frag ip n j).data.length = min n (ip.data.length - n * j) := by
  rw [frag_data, List.length_take, List.length_drop]

theorem copiedOpts_spec (h : Carries ip.opts os) :
    Carries (copiedOpts ip) (os.filter Opt.copied) ∧ (copiedOpts ip).length % 4 = 0 ∧
      (copiedOpts ip).length ≤ ip.opts.length := by
  unfold copiedOpts
  split
  · exact ipOptcopy_spec h ip.opts_ok.1
  · rename_i hlen
    have hnil : ip.opts = [] := List.length_eq_zero_iff.1 (by unfold Datagram.hlen at hlen; omega)
    obtain ⟨hvalid, tail, hopts, -⟩ := h
    rw [hnil] at hopts
    have hos : os = [] := by
      cases os with
      | nil => rfl
      | cons o os => cases o <;> simp [Opt.bytes] at hopts
    rw [hos]
    exact ⟨⟨by simp, [], rfl, .inl rfl⟩, rfl, Nat.zero_le _⟩

theorem frag_header (h : Carries ip.opts os) (hn : n ≤ ip.data.length) (j : Nat) :
    4 * (frag ip n j).hl = 20 + (frag ip n j).opts.length ∧ (frag ip n j).hl ≤ 15 ∧
      (frag ip n j).len = 4 * (frag ip n j).hl + (frag ip n j).data.length ∧
      (frag ip n j).opts.length ≤ ip.opts.length := by
  obtain ⟨-, h4, hle⟩ := copiedOpts_spec h
  have hok := ip.opts_ok
  unfold frag
  split
  · simp only [firstFrag, List.length_take, Datagram.hlen]
    omega
  · simp only
    omega

theorem frag_same (j : Nat) : (frag ip n j).tos = ip.tos ∧ (frag ip n j).ttl = ip.ttl ∧ (frag ip n j).key = ip.key := by
  unfold frag
  split <;> exact ⟨rfl, rfl, rfl⟩

theorem frag_off (hn : n < ip.data.length) {j : Nat} (h : ip.off.toNat % 8192 + n * j / 8 < 8192) :
    (frag ip n j).off.toNat % 8192 = ip.off.toNat % 8192 + n * j / 8 ∧
      (frag ip n j).off.getLsbD 13 = (ip.off.getLsbD 13 || decide (n * j + n < ip.data.length)) ∧
      (frag ip n j).off.getLsbD 15 = ip.off.getLsbD 15 := by
  unfold frag
  split
  · rename_i hj
    subst hj
    simp only [firstFrag, low_or_mf, bit_or_mf, hn, decide_true, Bool.or_true, Nat.mul_zero, Nat.zero_div,
      Nat.zero_add, Nat.add_zero, Nat.reduceEqDiff, decide_false, Bool.or_false, and_self]
  · have hoff : ip.hlen + n * j - ip.hlen = n * j := by omega
    have hspec := fragOff_spec ip (ip.hlen + n * j) (decide (n * j + n < ip.data.length)) (by rw [hoff]; exact h)
    rwa [hoff] at hspec

theorem frags_data (j : Nat) : ((List.range j).map (frag ip n)).flatMap Sent.data = ip.data.take (n * j) := by
  induction j with
  | zero => simp
  | succ j ih =>
    rw [List.range_succ, List.map_append, List.flatMap_append, ih, List.map_singleton, List.flatMap_singleton, frag_data,
      Nat.mul_succ, List.take_add]

end Frag

/-! ## Tiling -/

/-- The shape of a cut: fragments of `n` bytes, a multiple of eight that the interface has room for. -/
structure Cut (mtu : Nat) (ip : Datagram) (n : Nat) : Prop where
  pos : 8 ≤ n
  eights : n % 8 = 0
  room : ip.hlen + n ≤ mtu
  long : n < ip.data.length

theorem cut_room {mtu : Nat} {ip : Datagram} (hlong : mtu < ip.len) (hmtu : ip.hlen + 8 ≤ mtu) :
    Cut mtu ip (room mtu ip) := by
  have hlen : ip.len = ip.hlen + ip.data.length := rfl
  refine ⟨?_, ?_, ?_, ?_⟩ <;> unfold room <;> omega

section Cuts
variable {mtu n : Nat} {ip : Datagram}

theorem Cut.two_le (h : Cut mtu ip n) : 2 ≤ count ip n := by
  have hpos := h.pos
  exact (lt_count ip (by omega) 1).2 (by rw [Nat.mul_one]; exact h.long)

theorem Cut.last (h : Cut mtu ip n) : count ip n - 1 = (ip.data.length - 1) / n := by
  have hpos := h.pos
  have htwo := h.two_le
  have hlt := (lt_count ip (n := n) (by omega) (count ip n - 1)).1 (by omega)
  have hge := (lt_count ip (n := n) (by omega) (count ip n)).not.1 (Nat.lt_irrefl _)
  have hsucc : n * count ip n = n * (count ip n - 1) + n := by
    rw [← Nat.mul_succ]
    congr 1
    omega
  symm
  apply Nat.div_eq_of_lt_le
  · rw [Nat.mul_comm]
    omega
  · rw [Nat.add_mul, Nat.mul_comm]
    omega

theorem getElem_frags {k j : Nat} (hj : j < k) : ((List.range k).map (frag ip n))[j]? = some (frag ip n j) := by
  simp [hj]

theorem Cut.tiles (h : Cut mtu ip n) (hos : Carries ip.opts os)
    (hfit : ip.off.toNat % 8192 + n * (count ip n - 1) / 8 < 8192) :
    Tiles mtu ip os ((List.range (count ip n)).map (frag ip n)) := by
  have hpos := h.pos
  have heights := h.eights
  have hroom := h.room
  have hlong := h.long
  have htwo := h.two_le
  obtain ⟨k, hk⟩ : ∃ k, count ip n = k + 1 := ⟨count ip n - 1, by omega⟩
  have hmem : ∀ f ∈ (List.range (count ip n)).map (frag ip n), ∃ j < count ip n, f = frag ip n j := by
    intro f hf
    obtain ⟨j, hj, rfl⟩ := List.mem_map.1 hf
    exact ⟨j, List.mem_range.1 hj, rfl⟩
  have hlt : ∀ j < count ip n, n * j < ip.data.length := fun j hj => (lt_count ip (by omega) j).1 hj
  have hoff : ∀ j < count ip n, ip.off.toNat % 8192 + n * j / 8 < 8192 := by
    intro j hj
    have hle : n * j ≤ n * (count ip n - 1) := Nat.mul_le_mul_left n (by omega)
    have := Nat.div_le_div_right (c := 8) hle
    omega
  have hdrop : ((List.range (count ip n)).map (frag ip n)).dropLast = (List.range k).map (frag ip n) := by
    rw [hk, List.range_succ, List.map_append, List.map_singleton, List.dropLast_concat]
  have hinit : ∀ f ∈ ((List.range (count ip n)).map (frag ip n)).dropLast,
      ∃ j, j < count ip n ∧ n * j + n < ip.data.length ∧ f = frag ip n j := by
    intro f hf
    rw [hdrop] at hf
    obtain ⟨j, hj, rfl⟩ := List.mem_map.1 hf
    have hj := List.mem_range.1 hj
    have := hlt (j + 1) (by omega)
    rw [Nat.mul_succ] at this
    exact ⟨j, by omega, this, rfl⟩
  constructor
  · intro f hf
    obtain ⟨j, -, rfl⟩ := hmem f hf
    obtain ⟨h4, -, hlen, hle⟩ := frag_header hos (by omega : n ≤ ip.data.length) j
    have hdata := @frag_data_length ip n j
    have : ip.hlen = 20 + ip.opts.length := rfl
    omega
  · intro f hf
    obtain ⟨j, -, rfl⟩ := hmem f hf
    obtain ⟨h4, h15, hlen, -⟩ := frag_header hos (by omega : n ≤ ip.data.length) j
    exact ⟨h4, h15, hlen⟩
  · intro f hf
    obtain ⟨j, -, rfl⟩ := hmem f hf
    exact frag_same j
  · intro f hf
    obtain ⟨j, -, hmore, rfl⟩ := hinit f hf
    rw [frag_data_length]
    omega
  · intro pre f post hfs
    have hj : pre.length < count ip n := by
      have := congrArg List.length hfs
      simp only [List.length_map, List.length_range, List.length_append, List.length_cons] at this
      omega
    have hpre : pre = (List.range pre.length).map (frag ip n) := by
      have htake := congrArg (List.take pre.length) hfs
      rw [List.take_left' rfl, ← List.map_take, List.take_range, Nat.min_eq_left (by omega)] at htake
      exact htake.symm
    have hf : f = frag ip n pre.length := by
      have hget := congrArg (·[pre.length]?) hfs
      simp only [getElem_frags hj, List.getElem?_append_right (Nat.le_refl _), Nat.sub_self, List.getElem?_cons_zero] at hget
      exact (Option.some.inj hget).symm
    have hlen : (pre.flatMap Sent.data).length = n * pre.length := by
      have := hlt _ hj
      rw [hpre, frags_data, List.length_take, List.length_map, List.length_range]
      omega
    rw [hlen, hf]
    exact (frag_off h.long (hoff _ hj)).1
  · rw [frags_data]
    exact List.take_of_length_le (length_le_count ip (by omega))
  · intro f hf
    obtain ⟨j, hj, hmore, rfl⟩ := hinit f hf
    rw [(frag_off h.long (hoff j hj)).2.1]
    simp [hmore]
  · intro f hf
    rw [hk, List.range_succ, List.map_append, List.map_singleton, List.getLast?_concat] at hf
    obtain rfl := Option.some.inj hf
    have hend : ¬n * k + n < ip.data.length := by
      have := length_le_count ip (n := n) (by omega)
      rw [hk, Nat.mul_succ] at this
      omega
    rw [(frag_off h.long (hoff k (by omega))).2.1]
    simp [hend]
  · intro f hf
    rw [hk, List.range_succ_eq_map, List.map_cons, List.head?_cons] at hf
    rw [← Option.some.inj hf]
    simp [frag, firstFrag]
  · intro f hf
    rw [hk, List.range_succ_eq_map, List.map_cons, List.tail_cons, List.map_map] at hf
    obtain ⟨j, -, rfl⟩ := List.mem_map.1 hf
    have hopts : (frag ip n (j + 1)).opts = copiedOpts ip := by simp [frag]
    rw [Function.comp_apply, hopts]
    exact (copiedOpts_spec hos).1

theorem Cut.offset_lt (h : Cut mtu ip n) (ht : Tiles mtu ip os ((List.range (count ip n)).map (frag ip n))) :
    ip.off.toNat % 8192 + n * (count ip n - 1) / 8 < 8192 := by
  have hpos := h.pos
  have htwo := h.two_le
  obtain ⟨k, hk⟩ : ∃ k, count ip n = k + 1 := ⟨count ip n - 1, by omega⟩
  have hlt : n * k < ip.data.length := (lt_count ip (by omega) k).1 (by omega)
  have hoff := ht.contiguous ((List.range k).map (frag ip n)) (frag ip n k) [] (by
    rw [hk, List.range_succ, List.map_append, List.map_singleton])
  rw [frags_data, List.length_take, Nat.min_eq_left (by omega)] at hoff
  rw [hk, Nat.add_sub_cancel]
  omega

/-! ## Reassembly -/

/-- What the receiver has is a fragment of the datagram, and starts where it was cut. -/
theorem Cut.fragOf (h : Cut mtu ip n) (hos : Carries ip.opts os) (hip : ip.off = 0) (hshort : ip.data.length ≤ 32767)
    {j : Nat} (hj : j < count ip n) :
    FragOf ip.data (frag ip n j).received ∧ (frag ip n j).received.start = n * j := by
  have hpos := h.pos
  have hlt : n * j < ip.data.length := (lt_count ip (by omega) j).1 hj
  have hdvd : n * j % 8 = 0 := by
    rw [Nat.mul_mod, h.eights, Nat.zero_mul, Nat.zero_mod]
  have hzero : ip.off.toNat % 8192 = 0 := by rw [hip]; rfl
  obtain ⟨hoff, hmf, hres⟩ := frag_off (j := j) h.long (by omega)
  obtain ⟨-, h15, hlen, -⟩ := frag_header hos (Nat.le_of_lt h.long) j
  have hdata := @frag_data_length ip n j
  have hstart : (frag ip n j).received.start = n * j := by
    show 8 * ((frag ip n j).off.toNat % 8192) = n * j
    omega
  have hstop : (frag ip n j).received.stop = n * j + (frag ip n j).data.length := by
    rw [Ip.stop, hstart]
    rfl
  refine ⟨⟨?_, ?_, ?_, ?_, ?_⟩, hstart⟩
  · rw [hstop]
    omega
  · rw [hstart]
    show (frag ip n j).data = (ip.data.drop (n * j)).take (frag ip n j).data.length
    rw [hdata, frag_data, List.take_eq_take_iff, List.length_drop]
    omega
  · rw [hstop]
    show (frag ip n j).off.getLsbD 13 = false ↔ _
    rw [hmf, hip]
    simp only [BitVec.ofNat_eq_ofNat, BitVec.getLsbD_zero, Bool.false_or, decide_eq_false_iff_not]
    omega
  · show (frag ip n j).off.getLsbD 15 = false
    rw [hres, hip]
    rfl
  · show IpReass.short (frag ip n j).len = IpReass.short (IpReass.hlen (BitVec.ofNat 4 (frag ip n j).hl) + (frag ip n j).data.length)
    rw [IpReass.hlen, BitVec.toNat_ofNat, hlen]
    congr 1
    omega

/-- In any order, the fragments but the last to arrive are not complete and with it they are. -/
theorem Cut.reassembles (h : Cut mtu ip n) (hos : Carries ip.opts os) (hip : ip.off = 0)
    (hshort : ip.data.length ≤ 32767) : Reassembles ip ((List.range (count ip n)).map (frag ip n)) := by
  intro init last hperm
  have hpos := h.pos
  have hfrag : ∀ j < count ip n, FragOf ip.data (frag ip n j).received ∧ (frag ip n j).received.start = n * j :=
    fun j hj => h.fragOf hos hip hshort hj
  rw [List.map_map] at hperm
  have hmem : ∀ g, g ∈ init ++ [last] ↔ ∃ j < count ip n, g = (frag ip n j).received := by
    intro g
    rw [hperm.mem_iff, List.mem_map]
    simp only [List.mem_range, Function.comp_apply, eq_comm]
  have hkey : ∀ g ∈ init ++ [last], g.key = ip.key ∧ FragOf ip.data g := by
    intro g hg
    obtain ⟨j, hj, rfl⟩ := (hmem g).1 hg
    exact ⟨(frag_same j).2.2, (hfrag j hj).1⟩
  -- the starts are pairwise different, so no other fragment has the first byte of the last
  have hnodup : ((init ++ [last]).map Ip.start).Nodup := by
    rw [(hperm.map Ip.start).nodup_iff, List.map_map]
    refine List.Nodup.map_on (fun a ha b hb hab => ?_) List.nodup_range
    simp only [Function.comp_apply, (hfrag a (List.mem_range.1 ha)).2, (hfrag b (List.mem_range.1 hb)).2] at hab
    exact Nat.eq_of_mul_eq_mul_left (by omega) hab
  obtain ⟨j₀, hj₀, hlast⟩ := (hmem last).1 (by simp)
  have hinit : ¬Complete ip.data ip.key init := by
    intro hall
    obtain ⟨g, hg, -, hle, hlt⟩ := hall (n * j₀) ((lt_count ip (by omega) j₀).1 hj₀)
    obtain ⟨j, hj, rfl⟩ := (hmem g).1 (List.mem_append_left _ hg)
    have hdata := @frag_data_length ip n j
    rw [Ip.stop, (hfrag j hj).2] at hlt
    rw [(hfrag j hj).2] at hle
    have hlt : n * j₀ < n * (j + 1) := by
      have : (frag ip n j).received.data.length = (frag ip n j).data.length := rfl
      rw [Nat.mul_succ]
      omega
    have hle := Nat.le_of_mul_le_mul_left hle (by omega)
    have hlt := Nat.lt_of_mul_lt_mul_left hlt
    obtain rfl : j = j₀ := by omega
    rw [List.map_append, List.nodup_append] at hnodup
    exact hnodup.2.2 _ (List.mem_map_of_mem hg) last.start (by simp) (by rw [hlast])
  have hall : Complete ip.data ip.key (init ++ [last]) := by
    intro i hi
    have hdiv : n * (i / n) ≤ i := Nat.mul_div_le i n
    have hmod : i < n * (i / n) + n := by
      have := Nat.div_add_mod i n
      have := Nat.mod_lt i (by omega : n > 0)
      omega
    have hj : i / n < count ip n := (lt_count ip (by omega) _).2 (by omega)
    have hdata := @frag_data_length ip n (i / n)
    refine ⟨(frag ip n (i / n)).received, (hmem _).2 ⟨_, hj, rfl⟩, (frag_same _).2.2, ?_, ?_⟩
    · rw [(hfrag _ hj).2]
      exact hdiv
    · rw [Ip.stop, (hfrag _ hj).2]
      show i < n * (i / n) + (frag ip n (i / n)).data.length
      omega
  have hexact := (exact_of_short hshort ip.key init (fun g hg _ => (hkey g (List.mem_append_left _ hg)).2) hinit).2
  exact (hexact last (hkey last (by simp)).1 (hkey last (by simp)).2).1 hall

theorem reassembles_short {fs : List Sent} (hne : fs ≠ []) (h : Reassembles ip fs) : ip.data.length ≤ 32767 := by
  have hlast : fs.map Sent.received ≠ [] := by simpa using hne
  obtain ⟨d, hd, hdl⟩ := Option.map_eq_some_iff.1
    (h _ _ (List.Perm.of_eq (List.dropLast_append_getLast hlast)))
  have hlen := ours_len hd
  have : d.2.len = ip.data.length := congrArg Prod.snd hdl
  omega

theorem tiles_whole (hlen : ip.len ≤ mtu) : Tiles mtu ip os [ip.whole] := by
  have hopts := ip.opts_ok
  constructor
  · simpa [Datagram.whole] using hlen
  · intro f hf
    obtain rfl := List.mem_singleton.1 hf
    simp only [Datagram.whole, Datagram.len, Datagram.hlen]
    omega
  · intro f hf
    obtain rfl := List.mem_singleton.1 hf
    exact ⟨rfl, rfl, rfl⟩
  · intro f hf
    cases hf
  · intro pre f post hfs
    rcases pre with _ | ⟨g, pre⟩
    · obtain rfl := (List.cons.inj hfs).1
      simp [Datagram.whole]
    · have := (List.cons.inj hfs).2
      cases pre <;> cases this
  · simp [Datagram.whole]
  · intro f hf
    cases hf
  · intro f hf
    obtain rfl := Option.some.inj hf
    rfl
  · intro f hf
    obtain rfl := Option.some.inj hf
    rfl
  · intro f hf
    cases hf

/-- Every datagram that may be sent goes out in fragments that tile it, and those of a datagram that was
no fragment make it whole again in any order, exactly if it `Fits`. -/
theorem fragments_iff (mtu : Nat) (ip : Datagram) (os : List Opt) (hos : Carries ip.opts os)
    (hmtu : ip.hlen + 8 ≤ mtu) (hdf : ip.off &&& IP_DF = 0 ∨ ip.len ≤ mtu) :
    (∃ fs, ipOutput mtu ip = .ok fs ∧ Tiles mtu ip os fs ∧ (mtu < ip.len → ip.off = 0 → Reassembles ip fs)) ↔
      Fits mtu ip := by
  by_cases hlong : mtu < ip.len
  · have hcut := cut_room hlong hmtu
    have hout := ipOutput_eq ip hlong (hdf.resolve_right (by omega)) hmtu
    have hfits : Fits mtu ip ↔ ip.off.toNat % 8192 + room mtu ip * (count ip (room mtu ip) - 1) / 8 < 8192 ∧
        (ip.off = 0 → ip.data.length ≤ 32767) := by
      rw [hcut.last, Nat.mul_comm (room mtu ip)]
      exact ⟨fun h => h hlong, fun h _ => h⟩
    rw [hfits]
    constructor
    · rintro ⟨fs, hfs, htiles, hreass⟩
      obtain rfl := Except.ok.inj (hout.symm.trans hfs)
      have htwo := hcut.two_le
      refine ⟨hcut.offset_lt htiles, fun hip => reassembles_short ?_ (hreass hlong hip)⟩
      simp only [ne_eq, List.map_eq_nil_iff, List.range_eq_nil]
      omega
    · rintro ⟨hoff, hshort⟩
      exact ⟨_, hout, hcut.tiles hos hoff, fun _ hip => hcut.reassembles hos hip (hshort hip)⟩
  · refine ⟨fun _ h => absurd h hlong, fun _ => ⟨[ip.whole], ?_, tiles_whole (by omega), fun h => absurd h hlong⟩⟩
    rw [ipOutput, if_pos (by omega)]

end Cuts

/-- Two options, of which the second is copied, and 40 bytes. -/
def smallDatagram : Datagram :=
  ⟨0, 64, ⟨1, 2, 3, 17⟩, 0, [7, 4, 5, 0, 0x94, 4, 0, 0], List.replicate 40 7, by decide, by decide⟩

theorem fragments_iff_small : ∃ fs, ipOutput 44 smallDatagram = .ok fs ∧ fs.length = 3 ∧ Reassembles smallDatagram fs := by
  have hos : Carries smallDatagram.opts [.some 7 [5, 0], .some 0x94 [0, 0]] := by
    refine ⟨?_, [], rfl, .inl rfl⟩
    intro o ho
    simp only [List.mem_cons, List.not_mem_nil, or_false] at ho
    rcases ho with rfl | rfl <;> exact ⟨by decide, by decide, by decide⟩
  obtain ⟨fs, hfs, -, hreass⟩ := (fragments_iff 44 smallDatagram _ hos (by decide) (.inl (by decide))).2 (by
    intro _
    decide)
  refine ⟨fs, hfs, ?_, hreass (by decide) rfl⟩
  obtain rfl := Except.ok.inj (hfs.symm.trans (ipOutput_eq smallDatagram (by decide) (by decide) (by decide)))
  decide

/-- The datagram has 32768 bytes and no options. -/
def longDatagram : Datagram :=
  ⟨0, 64, ⟨1, 2, 3, 17⟩, 0, [], List.replicate 32768 7, by decide, by rw [List.length_replicate]; decide⟩

/-- Its fragments do not make it whole. -/
theorem not_reassembles_long : ∃ fs, ipOutput 1500 longDatagram = .ok fs ∧ ¬Reassembles longDatagram fs := by
  have hlen : longDatagram.data.length = 32768 := List.length_replicate
  have hlong : 1500 < longDatagram.len := by
    unfold Datagram.len
    omega
  refine ⟨_, ipOutput_eq longDatagram hlong (by decide) (by decide), fun hreass => ?_⟩
  have htwo := (cut_room hlong (by decide)).two_le
  have hshort := reassembles_short (by
    simp only [ne_eq, List.map_eq_nil_iff, List.range_eq_nil]
    omega) hreass
  omega

end BsdKernel.IpOutput
