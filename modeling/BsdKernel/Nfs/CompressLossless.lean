import BsdKernel.Nfs.CompressCode
/-!
# Compression loses nothing but where it slips

The loops read the bytes of a chain in order, however they are divided, and write `packed` and `unpacked` of
them. `nfs_compress_lossless` puts this together with `CompressCode`: a message that is compressed comes back as
it was, for every division of the compressed bytes into mbufs, if and only if it is not `Slipping`.
-/

namespace BsdKernel.NfsCompress

open Lib
open List (replicate)

variable {left : List UInt8} {chain : List (List UInt8)}

/-! ## Reading -/

/-- `left` is what is left to read of the chain. -/
def Reader.At (r : Reader) (left : List UInt8) : Prop :=
  ∃ m rest, r.m = m :: rest ∧ r.ip + r.ileft = m.length ∧ left = m.drop r.ip ++ rest.flatten

section Reading
variable {r : Reader} {left : List UInt8} {c : UInt8}

theorem flatten_dropWhile (l : List (List UInt8)) : (l.dropWhile (·.isEmpty)).flatten = l.flatten := by
  induction l with
  | nil => rfl
  | cons m l ih =>
    cases m with
    | nil => simpa using ih
    | cons x m => rfl

/-- What a read finds. -/
def Reader.Gets (r : Reader) (eof : UInt8) : List UInt8 → Prop
  | [] => ∃ r', r.get eof = some (eof, false, r')
  | c :: s => ∃ r', r.get eof = some (c, true, r') ∧ r'.At s

/-- A read takes the next byte, or finds the end. -/
theorem get_spec (eof : UInt8) (h : r.At left) : r.Gets eof left := by
  obtain ⟨m, rest, hm, hlen, rfl⟩ := h
  by_cases hleft : r.ileft = 0
  · have hdrop : m.drop r.ip = [] := List.drop_eq_nil_of_le (by omega)
    rw [hdrop, List.nil_append, ← flatten_dropWhile rest]
    have hhead := List.head?_dropWhile_not (fun m : List UInt8 => m.isEmpty) rest
    cases hd : rest.dropWhile (·.isEmpty) with
    | nil =>
      refine ⟨⟨[], r.ip, 0⟩, ?_⟩
      rw [Reader.get, if_pos hleft, hm]
      simp only [hd]
    | cons m' rest' =>
      rw [hd] at hhead
      cases m' with
      | nil => cases hhead
      | cons x m' =>
        refine ⟨⟨(x :: m') :: rest', 1, m'.length⟩, ?_, x :: m', rest', rfl, Nat.add_comm .., rfl⟩
        rw [Reader.get, if_pos hleft, hm]
        simp only [hd]
        rfl
  · have hip : r.ip < m.length := by omega
    rw [List.drop_eq_getElem_cons hip]
    refine ⟨{ r with ip := r.ip + 1, ileft := r.ileft - 1 }, ?_, m, rest, hm, ?_, rfl⟩
    · rw [Reader.get, if_neg hleft]
      simp [List.getElem?_eq_getElem hip, hm]
    · show r.ip + 1 + (r.ileft - 1) = m.length
      omega

theorem get_cons (eof : UInt8) (h : r.At (c :: left)) : ∃ r', r.get eof = some (c, true, r') ∧ r'.At left := get_spec eof h

theorem get_nil (eof : UInt8) (h : r.At []) : ∃ r', r.get eof = some (eof, false, r') := get_spec eof h

end Reading

/-! ## Writing -/

/-- The bytes written. -/
def Writer.bytes (w : Writer) : List UInt8 := w.before.flatten ++ w.om

/-- `nfscput` of one byte after the other. -/
def Writer.puts (al : Alloc) (w : Writer) (s : List UInt8) : Writer := s.foldl (Writer.nfscput al) w

section Writing
variable {al : Alloc} {w : Writer}

theorem puts_append (al : Alloc) (w : Writer) (s t : List UInt8) : w.puts al (s ++ t) = (w.puts al s).puts al t := List.foldl_append ..

theorem puts_cons (al : Alloc) (w : Writer) (c : UInt8) (s : List UInt8) : w.puts al (c :: s) = (w.nfscput al c).puts al s := rfl

theorem bytes_put (al : Alloc) (w : Writer) (c : UInt8) : (w.nfscput al c).bytes = w.bytes ++ [c] ∧ (w.nfscput al c).olen = w.olen + 1 := by
  unfold Writer.nfscput Writer.bytes
  split <;> simp

theorem bytes_puts (al : Alloc) (s : List UInt8) : ∀ w : Writer,
    (w.puts al s).bytes = w.bytes ++ s ∧ (w.puts al s).olen = w.olen + s.length := by
  induction s with
  | nil => exact fun w => ⟨(List.append_nil _).symm, rfl⟩
  | cons c s ih =>
    intro w
    obtain ⟨hbytes, hlen⟩ := ih (w.nfscput al c)
    obtain ⟨hb, hl⟩ := bytes_put al w c
    exact ⟨by rw [puts_cons, hbytes, hb, List.append_assoc]; rfl, by rw [puts_cons, hlen, hl, List.length_cons]; omega⟩

/-- The space of an mbuf is a multiple of 4, and so is what the mbufs before hold. -/
structure Aligned (w : Writer) : Prop where
  space : (w.om.length + w.oleft) % 4 = 0
  nonempty : 0 < w.om.length
  olen : w.olen % 4 = w.om.length % 4

theorem space_mod (al : Alloc) (n : Nat) : al.space n MLEN % 4 = 0 ∧ 8 ≤ al.space n MLEN := by
  unfold Alloc.space
  split <;> decide

theorem aligned_put (c : UInt8) (h : Aligned w) : Aligned (w.nfscput al c) := by
  obtain ⟨hs, hn, ho⟩ := h
  obtain ⟨hm, hge⟩ := space_mod al (w.before.length + 1)
  unfold Writer.nfscput
  split
  · rename_i hfull
    refine ⟨?_, Nat.one_pos, ?_⟩
    · show (1 + (al.space (w.before.length + 1) MLEN - 1)) % 4 = 0
      rw [show 1 + (al.space (w.before.length + 1) MLEN - 1) = al.space (w.before.length + 1) MLEN by omega, hm]
    · show (w.olen + 1) % 4 = 1 % 4
      omega
  · refine ⟨?_, ?_, ?_⟩
    · show ((w.om ++ [c]).length + (w.oleft - 1)) % 4 = 0
      rw [List.length_append, List.length_singleton, show w.om.length + 1 + (w.oleft - 1) = w.om.length + w.oleft by omega, hs]
    · show 0 < (w.om ++ [c]).length
      simp
    · show (w.olen + 1) % 4 = (w.om ++ [c]).length % 4
      rw [List.length_append, List.length_singleton]
      omega

theorem aligned_puts (s : List UInt8) : ∀ w : Writer, Aligned w → Aligned (w.puts al s) := by
  induction s with
  | nil => exact fun _ h => h
  | cons c s ih => exact fun w h => ih _ (aligned_put c h)

end Writing

/-! ## The loops -/

section Loops
variable {al : Alloc}

theorem putZeros_eq (al : Alloc) (i rlelast : Nat) (next : UInt8) (w : Writer) :
    putZeros al i rlelast next w = (w.puts al (flushed i rlelast next).1, (flushed i rlelast next).2) := by
  unfold putZeros flushed
  by_cases h2 : i < 2
  · rw [if_pos h2, if_pos h2]
    rfl
  · rw [if_neg h2, if_neg h2]
    by_cases hs : rlelast = i
    · simp only [if_pos hs]
      by_cases hn : NFSCRLE (i - 1) = next.toUInt32
      · rw [if_pos hn, if_pos hn]
        split <;> rfl
      · rw [if_neg hn, if_neg hn]
        rfl
    · simp only [if_neg hs]
      by_cases hn : NFSCRLE i = next.toUInt32
      · rw [if_pos hn, if_pos hn]
        split <;> rfl
      · rw [if_neg hn, if_neg hn]
        rfl

/-- A round with the byte `ch` before `next`: what is written, `i` and `rlelast`. -/
def packRound (i rlelast : Nat) (ch next : UInt8) : List UInt8 × Nat × Nat :=
  if ch = 0 then
    if i + 1 = NFSC_MAX ∨ next ≠ 0 then ((flushed (i + 1) rlelast next).1, 0, (flushed (i + 1) rlelast next).2)
    else ([], i + 1, rlelast)
  else (literal ch, 0, 0)

theorem packed_round (i rl : Nat) (ch : UInt8) (s : List UInt8) : packed i rl (ch :: s) =
    (packRound i rl ch (nextOf s)).1 ++ packed (packRound i rl ch (nextOf s)).2.1 (packRound i rl ch (nextOf s)).2.2 s := by
  rw [packed, packRound]
  split
  · split <;> rfl
  · rfl

theorem packStep_round {s : Packing} {next : UInt8} {noteof : Bool} {input : Reader} (hs : s.noteof = true)
    (hget : s.input.get 1 = some (next, noteof, input)) : packStep al s = .inl ⟨next, (packRound s.i s.rlelast s.nextch next).2.1,
      (packRound s.i s.rlelast s.nextch next).2.2, noteof, input, s.output.puts al (packRound s.i s.rlelast s.nextch next).1⟩ := by
  rw [packStep, if_pos hs, hget, packRound]
  simp only
  by_cases hch : s.nextch = 0
  · rw [if_pos hch, if_pos hch]
    by_cases hflush : s.i + 1 = NFSC_MAX ∨ next ≠ 0
    · rw [if_pos hflush, if_pos hflush, putZeros_eq]
    · rw [if_neg hflush, if_neg hflush]
      rfl
  · rw [if_neg hch, if_neg hch]
    by_cases hrl : s.nextch &&& NFSCRL = NFSCRL
    · have hlit : literal s.nextch = [s.nextch, s.nextch] := if_pos hrl
      rw [if_pos hrl, hlit]
      rfl
    · have hlit : literal s.nextch = [s.nextch] := if_neg hrl
      rw [if_neg hrl, hlit]
      rfl

/-- The loop of `nfs_compress`. -/
theorem pack_loop (al : Alloc) (left : List UInt8) : ∀ (n : Nat) (s : Packing), s.noteof = true → s.input.At left → left.length + 2 ≤ n →
    loop (packStep al) n s = some (some (s.output.puts al (packed s.i s.rlelast (s.nextch :: left)))) := by
  -- One byte is read in each round; after the last one a round finds `noteof` clear.
  induction left with
  | nil =>
    intro n s hs hat hn
    obtain ⟨input, hget⟩ := get_nil 1 hat
    obtain ⟨n, rfl⟩ : ∃ k, n = k + 2 := ⟨n - 2, by simp at hn; omega⟩
    rw [loop, packStep_round hs hget]
    simp only
    rw [loop, packStep, if_neg (by simp), packed_round, packed, List.append_nil]
    rfl
  | cons c left ih =>
    intro n s hs hat hn
    obtain ⟨input, hget, hat'⟩ := get_cons 1 hat
    obtain ⟨n, rfl⟩ : ∃ k, n = k + 1 := ⟨n - 1, by omega⟩
    rw [loop, packStep_round hs hget]
    simp only
    rw [ih n _ rfl hat' (by simp at hn; omega), packed_round s.i, puts_append]
    rfl

theorem unpack_done {n : Nat} {s : Unpacking} (hs : s.noteof = false) (hn : 1 ≤ n) :
    loop (unpackStep al) n s = some (some s.output) := by
  obtain ⟨n, rfl⟩ : ∃ k, n = k + 1 := ⟨n - 1, by omega⟩
  rw [loop, unpackStep, if_neg (by simp [hs])]

/-- What the loop writes for the bytes up to `k`. -/
def Unpacks (al : Alloc) (k : Nat) : Prop :=
  ∀ (left : List UInt8) (n : Nat) (s : Unpacking), left.length < k → s.noteof = true → s.input.At left → left.length + 2 ≤ n →
    loop (unpackStep al) n s = some (some (s.output.puts al (unpacked (s.cp :: left))))

theorem readit_spec {s : Unpacking} {k n : Nat} (ih : Unpacks al k) (hs : s.noteof = true) (hat : s.input.At left)
    (hk : left.length ≤ k) (hn : left.length + 1 ≤ n) :
    ∃ s', readit s = .inl s' ∧ loop (unpackStep al) n s' = some (some (s.output.puts al (unpacked left))) := by
  unfold readit nfscget
  cases left with
  | nil =>
    obtain ⟨input, hget⟩ := get_nil 0 hat
    rw [hget]
    exact ⟨_, rfl, unpack_done (by simp) hn⟩
  | cons c left =>
    obtain ⟨input, hget, hat'⟩ := get_cons 0 hat
    rw [hget]
    exact ⟨_, rfl, ih left n _ hk (by simp [hs]) hat' hn⟩

/-- The loop of `nfs_uncompress`. -/
theorem unpack_loop (al : Alloc) (k : Nat) : Unpacks al k := by
  induction k with
  | zero => exact fun left n s hk => absurd hk (Nat.not_lt_zero _)
  | succ k ih =>
    intro left n s hk hs hat hn
    obtain ⟨n, rfl⟩ : ∃ j, n = j + 1 := ⟨n - 1, by omega⟩
    rw [loop, unpackStep, if_pos hs]
    by_cases hrl : isRl s.cp
    · rw [if_pos (show s.cp &&& NFSCRL = NFSCRL from hrl)]
      unfold nfscget
      cases left with
      | nil =>
        obtain ⟨input, hget⟩ := get_nil 0 hat
        have hne : s.cp ≠ 0 := fun h => absurd (h ▸ hrl) (by decide)
        rw [hget]
        simp only [if_neg hne]
        rw [unpack_done rfl (by simp at hn; omega), unpacked_count hrl (by simp), unpacked, List.append_nil]
        rfl
      | cons d left =>
        obtain ⟨input, hget, hat'⟩ := get_cons 0 hat
        rw [hget]
        simp only
        simp only [List.length_cons] at hk hn
        by_cases hd : s.cp = d
        · rw [if_pos hd]
          obtain ⟨s', hread, hloop⟩ := readit_spec (s := ⟨s.cp, true, input, s.output.nfscput al s.cp⟩) (n := n) ih rfl hat'
            (by omega) (by omega)
          rw [hread]
          simp only
          rw [hloop, ← hd, unpacked_twice hrl]
          rfl
        · have hhead : (d :: left).head? ≠ some s.cp := fun h => hd (Option.some.inj h).symm
          rw [if_neg hd]
          simp only
          rw [ih left n _ (by omega) rfl hat' (by omega), unpacked_count hrl hhead, puts_append]
          rfl
    · rw [if_neg (show ¬s.cp &&& NFSCRL = NFSCRL from hrl)]
      obtain ⟨s', hread, hloop⟩ := readit_spec (s := { s with output := s.output.nfscput al s.cp }) (n := n) ih hs hat
        (by omega) (by omega)
      rw [hread]
      simp only
      rw [hloop, unpacked_plain hrl]
      rfl

end Loops

/-! ## `nfs_compress` -/

theorem and_three (n : Nat) : n &&& 3 = n % 4 := Nat.and_two_pow_sub_one_eq_mod n 2

/-- The zeros behind a compressed message. -/
def pad (n : Nat) : Nat := (4 - n % 4) % 4

/-- What a message is compressed to, but for the zeros behind it. -/
def compressed (bytes : List UInt8) : List UInt8 := bytes.take 4 ++ [bytes.getD 7 0 + 1] ++ packed 0 0 (bytes.drop 8)

theorem pad_puts (al : Alloc) (w : Writer) :
    (if w.olen &&& 3 ≠ 0 then w.zeros al (4 - (w.olen &&& 3)) else w) = w.puts al (replicate (pad w.olen) 0) := by
  rw [and_three]
  unfold pad
  split
  · rename_i h
    rw [Nat.mod_eq_of_lt (show 4 - w.olen % 4 < 4 by omega)]
    rfl
  · rename_i h
    rw [show w.olen % 4 = 0 by omega]
    rfl

/-- The two ways `nfs_compress` returns. -/
theorem compress_spec (cluster : Nat → Bool) {p : Packet} {m : List UInt8} {rest : List (List UInt8)} (hp : p.chain = m :: rest)
    (hm : 12 ≤ m.length) :
    ∃ q : Packet, q.chain.flatten = compressed p.chain.flatten ++ replicate (pad (compressed p.chain.flatten).length) 0 ∧
      q.len = q.chain.flatten.length ∧
      nfsCompress cluster p = some (if (compressed p.chain.flatten).length < p.len then .new q else .original) := by
  let al : Alloc := ⟨p.len ≥ MINCLSIZE, cluster⟩
  let output : Writer := ⟨[], m.take 4 ++ [m.getD 7 0 + 1], al.space 0 MHLEN - 5, 5⟩
  let body := packed 0 0 (m.getD 8 0 :: (m.drop 9 ++ rest.flatten))
  have hhead : m.getD 8 0 :: m.drop 9 = m.drop 8 := by
    rw [List.drop_eq_getElem_cons (i := 8) (by omega), List.getD_eq_getElem?_getD, List.getElem?_eq_getElem (by omega)]
    rfl
  have hbody : compressed p.chain.flatten = m.take 4 ++ [m.getD 7 0 + 1] ++ body := by
    have h4 : (m ++ rest.flatten).take 4 = m.take 4 := List.take_append_of_le_length (by omega)
    have h7 : (m ++ rest.flatten).getD 7 0 = m.getD 7 0 := by
      rw [List.getD_eq_getElem?_getD, List.getElem?_append_left (by omega), List.getD_eq_getElem?_getD]
    have h8 : (m ++ rest.flatten).drop 8 = m.getD 8 0 :: (m.drop 9 ++ rest.flatten) := by
      rw [List.drop_append_of_le_length (by omega), ← hhead]
      rfl
    rw [compressed, hp, List.flatten_cons, h4, h7, h8]
  have hinit : output.bytes = m.take 4 ++ [m.getD 7 0 + 1] := rfl
  have hlen5 : (m.take 4 ++ [m.getD 7 0 + 1]).length = 5 := by
    rw [List.length_append, List.length_take]
    simp
    omega
  obtain ⟨hbytes, holen⟩ := bytes_puts al body output
  rw [hinit, ← hbody] at hbytes
  have hcount : (output.puts al body).olen = (compressed p.chain.flatten).length := by
    rw [holen, hbody, List.length_append, hlen5]
  have hloop := pack_loop al (m.drop 9 ++ rest.flatten) (p.chain.flatten.length + 1) ⟨m.getD 8 0, 0, 0, true,
    ⟨p.chain, 9, m.length - 9⟩, output⟩ rfl ⟨m, rest, hp, by simp only; omega, rfl⟩ (by
      rw [hp, List.flatten_cons, List.length_append, List.length_append, List.length_drop]
      omega)
  let w := output.puts al body
  let q := w.puts al (replicate (pad w.olen) 0)
  have hw : w.bytes = compressed p.chain.flatten := hbytes
  have hwlen : w.olen = (compressed p.chain.flatten).length := hcount
  obtain ⟨hqbytes, hqlen⟩ : q.bytes = _ ∧ q.olen = _ := bytes_puts al (replicate (pad w.olen) 0) w
  have hflat : (q.before ++ [q.om]).flatten = q.bytes := by simp [Writer.bytes]
  refine ⟨⟨q.before ++ [q.om], q.olen⟩, ?_, ?_, ?_⟩
  · rw [hflat, hqbytes, hw, hwlen]
  · show q.olen = (q.before ++ [q.om]).flatten.length
    rw [hflat, hqbytes, hqlen, hw, hwlen, List.length_append]
  · have hshort : ¬m.length < 12 := by omega
    have hfit : (output.puts al body).olen < p.len ↔ (compressed p.chain.flatten).length < p.len := by rw [hcount]
    unfold nfsCompress
    simp only [hp, if_neg hshort] at hloop hfit ⊢
    rw [hloop]
    simp only
    by_cases hlt : (output.puts al body).olen < p.len
    · rw [if_pos hlt, if_pos (hfit.1 hlt)]
      have hpad := pad_puts al w
      exact congrArg (fun v : Writer => some (Outcome.new (⟨v.before ++ [v.om], v.olen⟩ : Packet))) hpad
    · rw [if_neg hlt, if_neg fun h => hlt (hfit.2 h)]

/-! ## `nfs_uncompress` -/

theorem countBytes_short (l : List (List UInt8)) : ∀ i, countBytes i l < 6 ↔ i + l.flatten.length < 6 := by
  induction l with
  | nil => exact fun i => by simp [countBytes]
  | cons m l ih =>
    intro i
    rw [countBytes, List.flatten_cons, List.length_append]
    split
    · rw [ih, Nat.add_assoc]
    · rename_i h
      have hmin : MINCLSIZE = 208 := rfl
      omega

/-- The head of the output. -/
def header (x0 x1 x2 x3 x4 : UInt8) : List UInt8 := [x0, x1, x2, x3, 0, 0, 0, x4 - 1]

/-- The first six bytes are read alike whether or not they are in one mbuf. -/
theorem unpackHead_spec {x0 x1 x2 x3 x4 cp : UInt8} (h : chain.flatten = x0 :: x1 :: x2 :: x3 :: x4 :: cp :: left) :
    ∃ r : Reader, r.At left ∧ unpackHead chain = some (if x4 = 0 then none else some (header x0 x1 x2 x3 x4, cp, r)) := by
  cases chain with
  | nil => cases h
  | cons m rest =>
    by_cases hm : 6 ≤ m.length
    · obtain ⟨y0, y1, y2, y3, y4, y5, m, rfl⟩ : ∃ y0 y1 y2 y3 y4 y5 m', m = y0 :: y1 :: y2 :: y3 :: y4 :: y5 :: m' := by
        match m, hm with
        | y0 :: y1 :: y2 :: y3 :: y4 :: y5 :: m', _ => exact ⟨y0, y1, y2, y3, y4, y5, m', rfl⟩
      simp only [List.flatten_cons, List.cons_append, List.cons.injEq] at h
      obtain ⟨rfl, rfl, rfl, rfl, rfl, rfl, rfl⟩ := h
      refine ⟨⟨(y0 :: y1 :: y2 :: y3 :: y4 :: y5 :: m) :: rest, 6, m.length⟩, ⟨_, rest, rfl, ?_, rfl⟩, ?_⟩
      · show 6 + m.length = m.length + 6
        exact Nat.add_comm ..
      · unfold unpackHead
        by_cases hx : y4 = 0
        · have hget : (y0 :: y1 :: y2 :: y3 :: y4 :: y5 :: m).getD 4 0 = 0 := hx
          simp only [ge_iff_le, if_pos hm, if_pos hget, if_pos hx]
        · have hget : ¬(y0 :: y1 :: y2 :: y3 :: y4 :: y5 :: m).getD 4 0 = 0 := hx
          simp only [ge_iff_le, if_pos hm, if_neg hget, if_neg hx]
          rfl
    · have hat : Reader.At ⟨m :: rest, 0, m.length⟩ (x0 :: x1 :: x2 :: x3 :: x4 :: cp :: left) :=
        ⟨m, rest, rfl, Nat.zero_add _, by rw [← h]; rfl⟩
      obtain ⟨r0, hget0, hat⟩ := get_cons 0 hat
      obtain ⟨r1, hget1, hat⟩ := get_cons 0 hat
      obtain ⟨r2, hget2, hat⟩ := get_cons 0 hat
      obtain ⟨r3, hget3, hat⟩ := get_cons 0 hat
      obtain ⟨r4, hget4, hat⟩ := get_cons 0 hat
      obtain ⟨r5, hget5, hat⟩ := get_cons 0 hat
      refine ⟨r5, hat, ?_⟩
      unfold unpackHead nfscget
      simp only [ge_iff_le, if_neg hm, hget0, hget1, hget2, hget3, hget4, hget5, Option.bind_eq_bind, Option.bind_some]
      split <;> rfl

/-- The bytes of a chain that is returned. -/
def contents (out : List (List UInt8 × Int)) : List UInt8 := out.flatMap fun m => m.1.take m.2.toNat

theorem contents_whole (l : List (List UInt8)) : contents (l.map fun m => (m, (m.length : Int))) = l.flatten := by
  induction l with
  | nil => rfl
  | cons m l ih =>
    rw [List.map_cons, List.flatten_cons, ← ih]
    show m.take (m.length : Int).toNat ++ _ = _
    rw [Int.toNat_natCast, List.take_length]
    rfl

/-- All but the last few of the bytes that were written are in the chain that is returned. -/
theorem contents_cut {w : Writer} (h : Aligned w) (hlen : w.olen = w.bytes.length) :
    contents (w.before.map (fun m => (m, (m.length : Int))) ++ [(w.om, (w.om.length : Int) - ((w.olen &&& 3 : Nat) : Int))]) =
      w.bytes.take (w.bytes.length - w.bytes.length % 4) ∧ 0 ≤ (w.om.length : Int) - ((w.olen &&& 3 : Nat) : Int) := by
  obtain ⟨-, hne, hmod⟩ := h
  rw [and_three, ← hlen]
  have hcut : ((w.om.length : Int) - ((w.olen % 4 : Nat) : Int)).toNat = w.om.length - w.olen % 4 := by omega
  constructor
  · have hbefore : w.olen - w.olen % 4 = w.before.flatten.length + (w.om.length - w.olen % 4) := by
      have hsum : w.olen = w.before.flatten.length + w.om.length := by rw [hlen, Writer.bytes, List.length_append]
      omega
    rw [hbefore, Writer.bytes, List.take_length_add_append, ← contents_whole, ← hcut, contents, List.flatMap_append,
      List.flatMap_singleton]
    rfl
  · omega

/-- The message `nfs_uncompress` makes of six bytes or more. -/
theorem uncompress_spec (cluster : Nat → Bool) {x0 x1 x2 x3 x4 cp : UInt8}
    (h : chain.flatten = x0 :: x1 :: x2 :: x3 :: x4 :: cp :: left) :
    ∃ out : List (List UInt8 × Int), (∀ m ∈ out, 0 ≤ m.2) ∧
      (∃ bytes, bytes = header x0 x1 x2 x3 x4 ++ unpacked (cp :: left) ∧ contents out = bytes.take (bytes.length - bytes.length % 4)) ∧
      nfsUncompress cluster chain = some (if x4 = 0 then .original else .new out) := by
  let al : Alloc := ⟨countBytes 0 chain ≥ MINCLSIZE, cluster⟩
  let output : Writer := ⟨[], header x0 x1 x2 x3 x4, al.space 0 MLEN - 8, 8⟩
  obtain ⟨r, hat, hhead⟩ := unpackHead_spec h
  have hloop := unpack_loop al (left.length + 1) left (chain.flatten.length + 1) ⟨cp, true, r, output⟩ (Nat.lt_succ_self _) rfl hat
    (by rw [h]; simp)
  have hal : Aligned output := by
    obtain ⟨hmod, hge⟩ := space_mod al 0
    refine ⟨?_, Nat.succ_pos 7, rfl⟩
    show (8 + (al.space 0 MLEN - 8)) % 4 = 0
    rw [Nat.add_sub_cancel' hge, hmod]
  let w := output.puts al (unpacked (cp :: left))
  obtain ⟨hbytes, holen⟩ := bytes_puts al (unpacked (cp :: left)) output
  have hw : w.bytes = header x0 x1 x2 x3 x4 ++ unpacked (cp :: left) := hbytes
  have hlen : w.olen = w.bytes.length := by
    rw [hw, List.length_append]
    exact holen
  obtain ⟨hcut, hpos⟩ := contents_cut (aligned_puts _ _ hal : Aligned w) hlen
  refine ⟨_, ?_, ⟨w.bytes, hw, hcut⟩, ?_⟩
  · intro m hm
    rw [List.mem_append, List.mem_map, List.mem_singleton] at hm
    rcases hm with ⟨x, -, rfl⟩ | rfl
    · exact Int.natCast_nonneg _
    · exact hpos
  · have hcount : ¬countBytes 0 chain < 6 := by
      rw [countBytes_short, h]
      simp
    unfold nfsUncompress
    simp only [if_neg hcount, hhead]
    by_cases hx : x4 = 0
    · simp only [if_pos hx]
    · simp only [if_neg hx]
      rw [hloop]

/-- `nfs_uncompress` ends, and reads nothing but the chain. -/
theorem uncompress_total (cluster : Nat → Bool) (chain : List (List UInt8)) : ∃ r, nfsUncompress cluster chain = some r := by
  by_cases h : chain.flatten.length < 6
  · refine ⟨.original, ?_⟩
    unfold nfsUncompress
    rw [if_pos ((countBytes_short chain 0).2 (by omega))]
  · have hsix : ∃ x0 x1 x2 x3 x4 cp left, chain.flatten = x0 :: x1 :: x2 :: x3 :: x4 :: cp :: left := by
      match chain.flatten, h with
      | x0 :: x1 :: x2 :: x3 :: x4 :: cp :: left, _ => exact ⟨x0, x1, x2, x3, x4, cp, left, rfl⟩
      | [], h | [_], h | [_, _], h | [_, _, _], h | [_, _, _, _], h | [_, _, _, _, _], h => simp at h
    obtain ⟨x0, x1, x2, x3, x4, cp, left, hflat⟩ := hsix
    obtain ⟨out, -, -, hout⟩ := uncompress_spec cluster hflat
    exact ⟨_, hout⟩

/-! ## Both -/

/-- An RPC message in a chain. -/
structure Message (p : Packet) : Prop where
  first : ∃ m rest, p.chain = m :: rest ∧ 12 ≤ m.length
  len : p.len = p.chain.flatten.length
  aligned : p.len % 4 = 0
  zeros : ∀ i, 4 ≤ i → i ≤ 6 → p.chain.flatten.getD i 0 = 0
  kind : p.chain.flatten.getD 7 0 = 0 ∨ p.chain.flatten.getD 7 0 = 1

/-- The packet is compressed, and comes back as `bytes` for every division into mbufs. -/
structure Lossless (bytes : List UInt8) (q : Packet) : Prop where
  fifth : q.chain.flatten.getD 4 0 ≠ 0
  len : q.len = q.chain.flatten.length
  aligned : q.len % 4 = 0
  back : ∀ cluster chain, chain.flatten = q.chain.flatten →
    ∃ out, nfsUncompress cluster chain = some (.new out) ∧ (∀ m ∈ out, 0 ≤ m.2) ∧ contents out = bytes

section Both
variable {cluster : Nat → Bool} {p q : Packet}

theorem message_bytes (h : Message p) : ∃ x0 x1 x2 x3 k c s, (k = 0 ∨ k = 1) ∧
    p.chain.flatten = x0 :: x1 :: x2 :: x3 :: 0 :: 0 :: 0 :: k :: c :: s := by
  obtain ⟨m, rest, hp, hm⟩ := h.first
  have hlen : 12 ≤ p.chain.flatten.length := by
    rw [hp, List.flatten_cons, List.length_append]
    omega
  have h4 := h.zeros 4 (by decide) (by decide)
  have h5 := h.zeros 5 (by decide) (by decide)
  have h6 := h.zeros 6 (by decide) (by decide)
  have h7 := h.kind
  generalize p.chain.flatten = bytes at *
  match bytes, hlen with
  | x0 :: x1 :: x2 :: x3 :: x4 :: x5 :: x6 :: k :: c :: s, _ =>
    obtain rfl : x4 = 0 := h4
    obtain rfl : x5 = 0 := h5
    obtain rfl : x6 = 0 := h6
    exact ⟨x0, x1, x2, x3, k, c, s, h7, rfl⟩

theorem uncompress_original (h : Message p) : nfsUncompress cluster p.chain = some .original := by
  obtain ⟨x0, x1, x2, x3, k, c, s, -, hflat⟩ := message_bytes h
  obtain ⟨out, -, -, hout⟩ := uncompress_spec cluster hflat
  rw [hout, if_pos rfl]

theorem pad_aligned (n : Nat) : (n + pad n) % 4 = 0 := by
  unfold pad
  omega

theorem pad_lt (n : Nat) : pad n < 4 := Nat.mod_lt _ (by decide)

theorem packed_nonempty (ch : UInt8) (s : List UInt8) : ∃ c t, packed 0 0 (ch :: s) = c :: t := by
  apply List.exists_cons_of_ne_nil
  intro hnil
  by_cases h : Slipping (ch :: s)
  · obtain ⟨j, -, hj⟩ := unpacked_slipped 0 (ch :: s) h
    rw [hnil] at hj
    cases hj
  · have hback := unpacked_packed 0 (ch :: s) h
    rw [hnil] at hback
    cases hback

/-- What a compressed message comes back as, but for the zeros that are cut off. -/
theorem compressed_back (cluster : Nat → Bool) (h : Message p)
    (hchain : chain.flatten = compressed p.chain.flatten ++ replicate (pad (compressed p.chain.flatten).length) 0) :
    ∃ out bytes, nfsUncompress cluster chain = some (.new out) ∧ (∀ m ∈ out, 0 ≤ m.2) ∧
      contents out = bytes.take (bytes.length - bytes.length % 4) ∧
      bytes = p.chain.flatten.take 8 ++
        unpacked (packed 0 0 (p.chain.flatten.drop 8) ++ replicate (pad (compressed p.chain.flatten).length) 0) := by
  obtain ⟨x0, x1, x2, x3, k, c, s, hk, hflat⟩ := message_bytes h
  obtain ⟨cp, left, hpacked⟩ := packed_nonempty c s
  have hbody : compressed p.chain.flatten = x0 :: x1 :: x2 :: x3 :: (k + 1) :: packed 0 0 (c :: s) := by
    rw [hflat]
    rfl
  have hk1 : k + 1 ≠ 0 ∧ k + 1 - 1 = k := by
    rcases hk with rfl | rfl <;> decide
  generalize pad (compressed p.chain.flatten).length = n at *
  have hchain' : chain.flatten = x0 :: x1 :: x2 :: x3 :: (k + 1) :: cp :: (left ++ replicate n 0) := by
    rw [hchain, hbody, hpacked]
    rfl
  obtain ⟨out, hpos, ⟨bytes, hbytes, hcontents⟩, hout⟩ := uncompress_spec cluster hchain'
  refine ⟨out, bytes, by rw [hout, if_neg hk1.1], hpos, hcontents, ?_⟩
  have hdrop : p.chain.flatten.drop 8 = c :: s := by
    rw [hflat]
    rfl
  have htake : p.chain.flatten.take 8 = header x0 x1 x2 x3 (k + 1) := by
    rw [hflat, header, hk1.2]
    rfl
  rw [hbytes, hdrop, hpacked, htake]
  rfl

theorem take_filled {bytes : List UInt8} {n : Nat} (hlen : bytes.length % 4 = 0) (hn : n < 4) :
    (bytes ++ replicate n 0).take ((bytes ++ replicate n (0 : UInt8)).length - (bytes ++ replicate n (0 : UInt8)).length % 4) = bytes := by
  rw [List.length_append, List.length_replicate]
  have hcut : bytes.length + n - (bytes.length + n) % 4 = bytes.length := by omega
  rw [hcut, List.take_left]

/-- A compressed message comes back if and only if no run slips. -/
theorem back_iff (h : Message p) :
    (∀ cluster chain, chain.flatten = compressed p.chain.flatten ++ replicate (pad (compressed p.chain.flatten).length) 0 →
      ∃ out, nfsUncompress cluster chain = some (.new out) ∧ (∀ m ∈ out, 0 ≤ m.2) ∧ contents out = p.chain.flatten) ↔
    ¬Slipping (p.chain.flatten.drop 8) := by
  have hmul : p.chain.flatten.length % 4 = 0 := h.len ▸ h.aligned
  constructor
  · intro hback hslip
    -- At the place of the slip a byte comes back that is not zero.
    obtain ⟨j, hzero, hee⟩ := unpacked_slipped (pad (compressed p.chain.flatten).length) _ hslip
    have hflat : [compressed p.chain.flatten ++ replicate (pad (compressed p.chain.flatten).length) 0].flatten = _ :=
      List.flatten_singleton
    obtain ⟨out, hout, -, hcontents⟩ := hback (fun _ => true) _ hflat
    obtain ⟨out', bytes, hout', -, hcontents', hbytes⟩ := compressed_back (fun _ => true) h hflat
    obtain rfl : out' = out := Outcome.new.inj (Option.some.inj (hout'.symm.trans hout))
    rw [List.getElem?_drop] at hzero
    have hj : 8 + j < p.chain.flatten.length := (List.getElem?_eq_some_iff.1 hzero).1
    have htake : (p.chain.flatten.take 8).length = 8 := by
      rw [List.length_take]
      omega
    have hread : bytes[8 + j]? = some 0xee := by
      rw [hbytes, List.getElem?_append_right (by omega), htake, Nat.add_sub_cancel_left, hee]
    have hcut : (contents out')[8 + j]? = some 0 := by rw [hcontents, hzero]
    rw [hcontents', List.getElem?_take] at hcut
    split at hcut
    · rw [hread] at hcut
      exact absurd hcut (by decide)
    · cases hcut
  · intro hok cluster chain hchain
    obtain ⟨out, bytes, hout, hpos, hcontents, hbytes⟩ := compressed_back cluster h hchain
    refine ⟨out, hout, hpos, ?_⟩
    rw [unpacked_packed _ _ hok, ← List.append_assoc, List.take_append_drop] at hbytes
    rw [hcontents, hbytes, take_filled hmul (pad_lt _)]

/-- Compression loses nothing: a message that is returned as it was is not uncompressed, and one that is compressed comes back
if and only if no maximal run of 51, 85, 119, … zeros from its ninth byte on is followed by `0xef`. -/
theorem nfs_compress_lossless (cluster : Nat → Bool) (p : Packet) (h : Message p) :
    (∃ r, nfsCompress cluster p = some r) ∧
    (nfsCompress cluster p = some .original → ∀ cl, nfsUncompress cl p.chain = some .original) ∧
    (∀ q, nfsCompress cluster p = some (.new q) → (Lossless p.chain.flatten q ↔ ¬Slipping (p.chain.flatten.drop 8))) ∧
    ∀ cl chain, ∃ r, nfsUncompress cl chain = some r := by
  obtain ⟨m, rest, hp, hm⟩ := h.first
  obtain ⟨q, hflat, hlen, hq⟩ := compress_spec cluster hp hm
  refine ⟨⟨_, hq⟩, fun _ cl => uncompress_original h, ?_, uncompress_total⟩
  intro q' hq'
  obtain rfl : q = q' := by
    rw [hq] at hq'
    split at hq'
    · exact Outcome.new.inj (Option.some.inj hq')
    · cases hq'
  rw [← back_iff h, ← hflat]
  refine ⟨fun hl => hl.back, fun hback => ⟨?_, hlen, ?_, hback⟩⟩
  · obtain ⟨x0, x1, x2, x3, k, c, s, hk, hbytes⟩ := message_bytes h
    rw [hflat, hbytes]
    show k + 1 ≠ 0
    rcases hk with rfl | rfl <;> decide
  · rw [hlen, hflat, List.length_append, List.length_replicate, pad_aligned]

end Both

/-- A message with a run of 52 zeros, in two mbufs. -/
def kept : Packet := ⟨[[1, 2, 3, 4, 0, 0, 0, 1, 7, 7, 7, 7], replicate 52 0], 64⟩

theorem kept_lossless :
    (∃ r, nfsCompress (fun _ => true) kept = some r) ∧
    (nfsCompress (fun _ => true) kept = some .original → ∀ cl, nfsUncompress cl kept.chain = some .original) ∧
    (∀ q, nfsCompress (fun _ => true) kept = some (.new q) →
      (Lossless kept.chain.flatten q ↔ ¬Slipping (kept.chain.flatten.drop 8))) ∧
    ∀ cl chain, ∃ r, nfsUncompress cl chain = some r :=
  nfs_compress_lossless (fun _ => true) kept ⟨⟨_, _, rfl, by decide⟩, by decide, rfl, by decide, .inr rfl⟩

/-- A message with a run of 51 zeros followed by `0xef`. -/
def slipped : Packet := ⟨[[1, 2, 3, 4, 0, 0, 0, 0, 7, 7, 7, 7] ++ replicate 51 0 ++ [0xef]], 64⟩

/-- The byte behind the code for 16 zeros is the same code, and both together are read as a byte. -/
theorem slipped_lossy : Message slipped ∧ ∃ q, nfsCompress (fun _ => true) slipped = some (.new q) ∧ ¬Lossless slipped.chain.flatten q := by
  have hmsg : Message slipped := ⟨⟨_, _, rfl, by decide⟩, by decide, rfl, by decide, .inl rfl⟩
  have hslip : Slipping (slipped.chain.flatten.drop 8) := ⟨[7, 7, 7, 7], 0, [], rfl, by decide⟩
  obtain ⟨q, hflat, -, hq⟩ := compress_spec (fun _ => true) (p := slipped) rfl (by decide)
  refine ⟨hmsg, q, hq.trans (congrArg some (if_pos (by decide))), fun h => ?_⟩
  have hback := h.back
  rw [hflat] at hback
  exact (back_iff hmsg).1 hback hslip

end BsdKernel.NfsCompress
