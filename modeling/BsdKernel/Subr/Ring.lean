import Mathlib.Data.List.Induction
import Mathlib.Data.Nat.Basic
import Mathlib.Logic.Function.Basic

/-!
# Ring buffers

The character queues of `subr/ring.c` and the macros of `ringbuf.h`: two
pointers into a circular store of `RBSZ` bytes. `Holds r q` says that `q` is
queued in `r`; each operation is an operation of a double-ended queue on `q`,
except that `catb` drops what its target has no room for.
-/

namespace BsdKernel.Ring

/-- The size of the store; one byte of it is never used. -/
abbrev RBSZ : Nat := 1024

/-- `struct ringb`, the pointers as offsets into `rb_buf`. -/
structure Ringb where
  rb_hd : Nat
  rb_tl : Nat
  rb_buf : Nat → UInt8

def RB_SUCC (p : Nat) : Nat := if p ≥ RBSZ - 1 then 0 else p + 1

def RB_ROLLOVER (p : Nat) : Nat := if p > RBSZ - 1 then 0 else p

def RB_PRED (p : Nat) : Nat := if p ≤ 0 then RBSZ - 1 else p - 1

def RB_LEN (r : Ringb) : Nat :=
  if r.rb_hd ≤ r.rb_tl then r.rb_tl - r.rb_hd else RBSZ - (r.rb_hd - r.rb_tl)

def RB_CONTIGPUT (r : Ringb) : Nat :=
  if RB_PRED r.rb_hd < r.rb_tl then RBSZ - r.rb_tl else RB_PRED r.rb_hd - r.rb_tl

def RB_CONTIGGET (r : Ringb) : Nat :=
  if r.rb_hd ≤ r.rb_tl then r.rb_tl - r.rb_hd else RBSZ - r.rb_hd

def initrb (r : Ringb) : Ringb := { r with rb_hd := 0, rb_tl := 0 }

def putc (c : Nat) (r : Ringb) : Int × Ringb :=
  let nxtp := RB_SUCC r.rb_tl
  if nxtp = r.rb_hd then (-1, r)
  else (0, { r with rb_buf := Function.update r.rb_buf r.rb_tl (UInt8.ofNat c), rb_tl := nxtp })

def getc (r : Ringb) : Int × Ringb :=
  if r.rb_hd = r.rb_tl then (-1, r)
  else ((r.rb_buf r.rb_hd).toNat, { r with rb_hd := RB_SUCC r.rb_hd })

/-- The value (a signed `char`) and the pointer after it. -/
def nextc (cp : Nat) (r : Ringb) : Int × Nat :=
  if cp = r.rb_tl then (0, cp) else ((r.rb_buf cp).toInt8.toInt, RB_SUCC cp)

def ungetc (c : Nat) (r : Ringb) : Int × Ringb :=
  let backp := RB_PRED r.rb_hd
  if backp = r.rb_tl then (-1, r)
  else (0, { r with rb_buf := Function.update r.rb_buf backp (UInt8.ofNat c), rb_hd := backp })

def unputc (r : Ringb) : Int × Ringb :=
  if r.rb_hd = r.rb_tl then (-1, r)
  else
    let backp := RB_PRED r.rb_tl
    ((r.rb_buf backp).toNat, { r with rb_tl := backp })

/-- The store with the bytes `w` copied to offset `dst`. -/
def memcpy (buf : Nat → UInt8) (dst : Nat) (w : List UInt8) (p : Nat) : UInt8 :=
  if p < dst then buf p else (w[p - dst]?).getD (buf p)

/-- The documented contiguous put of at most the bytes `w`. -/
def contigPut (w : List UInt8) (r : Ringb) : Nat × Ringb :=
  let nc := min w.length (RB_CONTIGPUT r)
  (nc, { r with rb_buf := memcpy r.rb_buf r.rb_tl (w.take nc), rb_tl := RB_ROLLOVER (r.rb_tl + nc) })

/-- The documented contiguous get of at most `m` bytes. -/
def contigGet (m : Nat) (r : Ringb) : List UInt8 × Ringb :=
  let nc := min m (RB_CONTIGGET r)
  ((List.range nc).map (fun i => r.rb_buf (r.rb_hd + i)), { r with rb_hd := RB_ROLLOVER (r.rb_hd + nc) })

abbrev Bufs := Nat → Ringb

/-- The loop of `catb`, `none` when it has not ended after so many rounds. -/
def catb : Nat → Nat → Nat → Bufs → Option Bufs
  | 0, _, _, _ => none
  | n + 1, f, t, s =>
    let (c, r) := getc (s f)
    if c ≥ 0 then
      let s := Function.update s f r
      catb n f t (Function.update s t (putc c.toNat (s t)).2)
    else some s

inductive Op where
  | putc (b c : Nat)
  | getc (b : Nat)
  | ungetc (b c : Nat)
  | unputc (b : Nat)
  | catb (f t : Nat)
  | contigPut (b : Nat) (w : List UInt8)
  | contigGet (b m : Nat)

/-- What an operation returns: its value, or the bytes it copied out. -/
inductive Out where
  | value (n : Int)
  | bytes (w : List UInt8)
  | unit

/-- One operation; no queue has the bytes for `RBSZ` rounds of `catb` with another. -/
def exec (s : Bufs) : Op → Option (Out × Bufs)
  | .putc b c => some (.value (putc c (s b)).1, Function.update s b (putc c (s b)).2)
  | .getc b => some (.value (getc (s b)).1, Function.update s b (getc (s b)).2)
  | .ungetc b c => some (.value (ungetc c (s b)).1, Function.update s b (ungetc c (s b)).2)
  | .unputc b => some (.value (unputc (s b)).1, Function.update s b (unputc (s b)).2)
  | .catb f t => (catb RBSZ f t s).map (Out.unit, ·)
  | .contigPut b w => some (.value (contigPut w (s b)).1, Function.update s b (contigPut w (s b)).2)
  | .contigGet b m => some (.bytes (contigGet m (s b)).1, Function.update s b (contigGet m (s b)).2)

/-! ## Double-ended queues -/

/-- `q` is what the ring holds, from the head on. -/
structure Holds (r : Ringb) (q : List UInt8) : Prop where
  head : r.rb_hd < RBSZ
  room : q.length < RBSZ
  tail : r.rb_tl = (r.rb_hd + q.length) % RBSZ
  bytes : ∀ i (h : i < q.length), r.rb_buf ((r.rb_hd + i) % RBSZ) = q[i]

def pushBack (c : Nat) (q : List UInt8) : Int × List UInt8 :=
  if q.length = RBSZ - 1 then (-1, q) else (0, q ++ [UInt8.ofNat c])

def popFront : List UInt8 → Int × List UInt8
  | [] => (-1, [])
  | c :: q => (c.toNat, q)

def pushFront (c : Nat) (q : List UInt8) : Int × List UInt8 :=
  if q.length = RBSZ - 1 then (-1, q) else (0, UInt8.ofNat c :: q)

def popBack (q : List UInt8) : Int × List UInt8 :=
  match q.getLast? with
  | none => (-1, [])
  | some c => (c.toNat, q.dropLast)

theorem succ_eq (p : Nat) : RB_SUCC p = RB_ROLLOVER (p + 1) := by
  simp only [RB_SUCC, RB_ROLLOVER, RBSZ]
  split <;> split <;> omega

theorem update_eq_memcpy (buf : Nat → UInt8) (p : Nat) (c : UInt8) : Function.update buf p c = memcpy buf p [c] := by
  funext i
  rcases Nat.lt_trichotomy i p with h | rfl | h
  · simp [memcpy, h, Function.update_of_ne (Nat.ne_of_lt h)]
  · simp [memcpy]
  · rw [Function.update_of_ne (Nat.ne_of_gt h), memcpy, if_neg (by omega), List.getElem?_eq_none (by simp; omega)]
    rfl

namespace Holds
variable {r : Ringb} {q : List UInt8}

theorem nums (h : Holds r q) : r.rb_hd < 1024 ∧ q.length < 1024 ∧ r.rb_tl = (r.rb_hd + q.length) % 1024 :=
  ⟨h.head, h.room, h.tail⟩

theorem len (h : Holds r q) : RB_LEN r = q.length := by
  have := h.nums
  simp only [RB_LEN, RBSZ]
  split <;> omega

theorem empty_iff (h : Holds r q) : r.rb_hd = r.rb_tl ↔ q = [] := by
  have := h.nums
  rw [← List.length_eq_zero_iff]
  omega

theorem succ_full_iff (h : Holds r q) : RB_SUCC r.rb_tl = r.rb_hd ↔ q.length = RBSZ - 1 := by
  have := h.nums
  simp only [RB_SUCC, RBSZ]
  split <;> omega

theorem pred_full_iff (h : Holds r q) : RB_PRED r.rb_hd = r.rb_tl ↔ q.length = RBSZ - 1 := by
  have := h.nums
  simp only [RB_PRED, RBSZ]
  split <;> omega

theorem contigput (h : Holds r q) : RB_CONTIGPUT r ≤ RBSZ - 1 - q.length ∧ r.rb_tl + RB_CONTIGPUT r ≤ RBSZ ∧
    (0 < RB_CONTIGPUT r ↔ q.length ≠ RBSZ - 1) := by
  have := h.nums
  simp only [RB_CONTIGPUT, RB_PRED, RBSZ]
  split <;> split <;> omega

theorem contigget (h : Holds r q) : RB_CONTIGGET r ≤ q.length ∧ r.rb_hd + RB_CONTIGGET r ≤ RBSZ ∧
    (0 < RB_CONTIGGET r ↔ q ≠ []) := by
  have := h.nums
  rw [ne_eq, ← List.length_eq_zero_iff]
  simp only [RB_CONTIGGET, RBSZ]
  split <;> omega

/-- Bytes copied behind the tail, without a wrap and within the room, are queued. -/
theorem put (h : Holds r q) (w : List UInt8) (hend : r.rb_tl + w.length ≤ RBSZ) (hroom : q.length + w.length < RBSZ) :
    Holds { r with rb_buf := memcpy r.rb_buf r.rb_tl w, rb_tl := RB_ROLLOVER (r.rb_tl + w.length) } (q ++ w) := by
  have hn := h.nums
  refine ⟨h.head, by simpa using hroom, ?_, fun i hi => ?_⟩ <;> rw [List.length_append] at * <;>
    simp only [RBSZ] at hend hroom ⊢
  · simp only [RB_ROLLOVER, RBSZ]
    split <;> omega
  · simp only [memcpy]
    by_cases hq : i < q.length
    · -- the place of an old byte is not among those written
      have hkeep : ¬(r.rb_hd + i) % 1024 < r.rb_tl → w.length ≤ (r.rb_hd + i) % 1024 - r.rb_tl := by omega
      rw [List.getElem_append_left hq, ← h.bytes i hq]
      split
      · rfl
      · rw [List.getElem?_eq_none (hkeep ‹_›)]
        rfl
    · have hp : (r.rb_hd + i) % 1024 = r.rb_tl + (i - q.length) := by omega
      rw [hp, if_neg (by omega), Nat.add_sub_cancel_left, List.getElem_append_right (by omega),
        List.getElem?_eq_getElem (by omega)]
      rfl

/-- Bytes passed at the head, without a wrap, are gone. -/
theorem get (h : Holds r q) {n : Nat} (hn : n ≤ q.length) (hend : r.rb_hd + n ≤ RBSZ) :
    Holds { r with rb_hd := RB_ROLLOVER (r.rb_hd + n) } (q.drop n) := by
  have hnums := h.nums
  have hhd : RB_ROLLOVER (r.rb_hd + n) = (r.rb_hd + n) % 1024 := by
    simp only [RB_ROLLOVER, RBSZ] at hend ⊢
    split <;> omega
  rw [hhd]
  refine ⟨Nat.mod_lt _ (by decide), ?_, ?_, fun i hi => ?_⟩ <;> rw [List.length_drop] at * <;> simp only [RBSZ]
  · omega
  · omega
  · rw [List.getElem_drop, ← h.bytes (n + i) (by omega)]
    congr 1
    simp only [RBSZ]
    omega

theorem putc (h : Holds r q) (c : Nat) :
    (Ring.putc c r).1 = (pushBack c q).1 ∧ Holds (Ring.putc c r).2 (pushBack c q).2 := by
  have hn := h.nums
  simp only [Ring.putc, pushBack, h.succ_full_iff]
  split
  · exact ⟨rfl, h⟩
  · have hf : ¬q.length = 1023 := ‹_›
    rw [update_eq_memcpy, succ_eq]
    exact ⟨rfl, h.put [UInt8.ofNat c] (by simp [RBSZ]; omega) (by simp [RBSZ]; omega)⟩

theorem getc (h : Holds r q) : (Ring.getc r).1 = (popFront q).1 ∧ Holds (Ring.getc r).2 (popFront q).2 := by
  have := h.head
  rw [Ring.getc]
  cases q with
  | nil => simpa [h.empty_iff, popFront] using h
  | cons c q =>
    rw [if_neg (by simp [h.empty_iff]), succ_eq]
    have hc := h.bytes 0 (by simp)
    rw [Nat.add_zero, Nat.mod_eq_of_lt h.head] at hc
    exact ⟨by simp [popFront, hc], h.get (by simp) (by omega)⟩

theorem ungetc (h : Holds r q) (c : Nat) :
    (Ring.ungetc c r).1 = (pushFront c q).1 ∧ Holds (Ring.ungetc c r).2 (pushFront c q).2 := by
  have hn := h.nums
  simp only [Ring.ungetc, pushFront, h.pred_full_iff]
  split
  · exact ⟨rfl, h⟩
  · have hf : ¬q.length = 1023 := ‹_›
    have hp : RB_PRED r.rb_hd < 1024 ∧ (RB_PRED r.rb_hd + 1) % 1024 = r.rb_hd := by
      simp only [RB_PRED, RBSZ]; split <;> omega
    refine ⟨rfl, hp.1, by simp [RBSZ]; omega, by simp [RBSZ]; omega, fun i hi => ?_⟩
    cases i with
    | zero => simp [RBSZ, Nat.mod_eq_of_lt hp.1]
    | succ i =>
      have hi : i < q.length := by simpa using hi
      have hpos : (RB_PRED r.rb_hd + (i + 1)) % 1024 = (r.rb_hd + i) % 1024 := by omega
      rw [List.getElem_cons_succ, ← h.bytes i hi]
      dsimp only [RBSZ]
      rw [hpos, Function.update_of_ne (by omega)]

theorem unputc (h : Holds r q) : (Ring.unputc r).1 = (popBack q).1 ∧ Holds (Ring.unputc r).2 (popBack q).2 := by
  have hn := h.nums
  rw [Ring.unputc]
  induction q using List.reverseRecOn with
  | nil => simpa [h.empty_iff, popBack] using h
  | append_singleton q c =>
    rw [List.length_append, List.length_singleton] at hn
    have hp : RB_PRED r.rb_tl = (r.rb_hd + q.length) % RBSZ := by simp only [RB_PRED, RBSZ]; split <;> omega
    have hc := h.bytes q.length (by simp)
    simp only [if_neg (show ¬r.rb_hd = r.rb_tl by simp [h.empty_iff]), popBack, List.getLast?_concat,
      List.dropLast_concat, hp, hc]
    refine ⟨by simp, h.head, by simp only [RBSZ]; omega, rfl, fun i hi => ?_⟩
    rw [h.bytes i (by simp; omega), List.getElem_append_left hi]

end Holds

/-! ## Runs -/

/-- The values of `n` calls of `nextc` from `cp` on. -/
def scan (r : Ringb) : Nat → Nat → List Int
  | 0, _ => []
  | n + 1, cp => (nextc cp r).1 :: scan r n (nextc cp r).2

/-- What a ring shows of the bytes `q` queued in it. -/
structure Shows (r : Ringb) (q : List UInt8) : Prop where
  len : RB_LEN r = q.length
  room : q.length ≤ RBSZ - 1
  contigput : RB_CONTIGPUT r ≤ RBSZ - 1 - q.length ∧ r.rb_tl + RB_CONTIGPUT r ≤ RBSZ ∧
    (0 < RB_CONTIGPUT r ↔ q.length ≠ RBSZ - 1)
  contigget : RB_CONTIGGET r ≤ q.length ∧ r.rb_hd + RB_CONTIGGET r ≤ RBSZ ∧ (0 < RB_CONTIGGET r ↔ q ≠ [])
  scan : ∀ n, scan r n r.rb_hd = (q.take n).map (·.toInt8.toInt) ++ List.replicate (n - q.length) 0

abbrev Queues := Nat → List UInt8

/-- What an operation may return and do to the queues. -/
def Spec (q : Queues) (o : Op) (out : Out) (q' : Queues) : Prop :=
  match o with
  | .putc b c => out = .value (pushBack c (q b)).1 ∧ q' = Function.update q b (pushBack c (q b)).2
  | .getc b => out = .value (popFront (q b)).1 ∧ q' = Function.update q b (popFront (q b)).2
  | .ungetc b c => out = .value (pushFront c (q b)).1 ∧ q' = Function.update q b (pushFront c (q b)).2
  | .unputc b => out = .value (popBack (q b)).1 ∧ q' = Function.update q b (popBack (q b)).2
  | .catb f t => out = .unit ∧ q' t ++ q' f = q t ++ q f ∧ ∀ b, b ≠ f → b ≠ t → q' b = q b
  | .contigPut b w => ∃ n : Nat, out = .value n ∧ q' = Function.update q b (q b ++ w.take n) ∧ n ≤ w.length ∧
      (n = 0 → w = [] ∨ (q b).length = RBSZ - 1)
  | .contigGet b m => ∃ n, out = .bytes ((q b).take n) ∧ q' = Function.update q b ((q b).drop n) ∧ n ≤ m ∧
      (n = 0 → m = 0 ∨ q b = [])

/-- `catb` is given another ring, or an empty one, and has the room. -/
def Fits (s : Bufs) : Op → Prop
  | .catb f t => (f = t → RB_LEN (s f) = 0) ∧ RB_LEN (s f) + RB_LEN (s t) ≤ RBSZ - 1
  | _ => True

inductive Run {S : Type} (step : S → Op → Out → S → Prop) : S → List (Op × Out) → S → Prop
  | nil (s : S) : Run step s [] s
  | cons {s s' s'' : S} {o : Op} {out : Out} {tr : List (Op × Out)} :
      step s o out s' → Run step s' tr s'' → Run step s ((o, out) :: tr) s''

theorem Holds.scan_from {r : Ringb} {q : List UInt8} (h : Holds r q) (n : Nat) : ∀ i ≤ q.length,
    scan r n ((r.rb_hd + i) % 1024) =
      ((q.drop i).take n).map (·.toInt8.toInt) ++ List.replicate (n - (q.length - i)) 0 := by
  have hn := h.nums
  induction n with
  | zero => simp [scan]
  | succ n ih =>
    intro i hi
    rw [scan, nextc]
    rcases Nat.lt_or_eq_of_le hi with hlt | rfl
    · have hsucc : RB_SUCC ((r.rb_hd + i) % 1024) = (r.rb_hd + (i + 1)) % 1024 := by
        simp only [RB_SUCC, RBSZ]
        split <;> omega
      rw [if_neg (by omega), hsucc, ih _ hlt, h.bytes i hlt, List.drop_eq_getElem_cons hlt,
        show n + 1 - (q.length - i) = n - (q.length - (i + 1)) by omega]
      rfl
    · rw [if_pos hn.2.2.symm, ih _ le_rfl]
      simp [List.replicate_succ]

theorem Holds.shows {r : Ringb} {q : List UInt8} (h : Holds r q) : Shows r q where
  len := h.len
  room := Nat.le_pred_of_lt h.room
  contigput := h.contigput
  contigget := h.contigget
  scan n := by simpa [Nat.mod_eq_of_lt h.nums.1] using h.scan_from n 0 (Nat.zero_le _)

theorem holds_init (r : Ringb) : Holds (initrb r) [] :=
  ⟨Nat.zero_lt_succ _, Nat.zero_lt_succ _, rfl, fun _ h => absurd h (Nat.not_lt_zero _)⟩

theorem holds_update {s : Bufs} {q : Queues} (h : ∀ b, Holds (s b) (q b)) {r : Ringb} {w : List UInt8} (hr : Holds r w)
    (b : Nat) : ∀ b', Holds (Function.update s b r b') (Function.update q b w b') := by
  intro b'
  by_cases hb : b' = b
  · subst hb
    simpa using hr
  · simpa [hb] using h b'

theorem pushBack_take (c : UInt8) {q : List UInt8} (h : q.length < RBSZ) :
    (pushBack c.toNat q).2 = (q ++ [c]).take (RBSZ - 1) := by
  rw [pushBack]
  split
  · rw [List.take_append_of_le_length (by omega), List.take_of_length_le (by omega)]
  · rw [List.take_of_length_le (by simp [RBSZ] at *; omega)]
    simp

theorem take_take_append {α : Type} (l w : List α) (n : Nat) : (l.take n ++ w).take n = (l ++ w).take n := by
  rw [List.take_append, List.take_append, List.take_take, Nat.min_self, List.length_take]
  congr 2
  omega

/-- `catb` appends what there is room for and drops the rest. -/
theorem catb_holds {f t : Nat} (hft : f ≠ t) (n : Nat) : ∀ (s : Bufs) (q : Queues), (∀ b, Holds (s b) (q b)) →
    (q f).length < n → ∃ s', catb n f t s = some s' ∧
      ∀ b, Holds (s' b) (Function.update (Function.update q f []) t ((q t ++ q f).take (RBSZ - 1)) b) := by
  induction n with
  | zero => exact fun s q _ h => absurd h (Nat.not_lt_zero _)
  | succ n ih =>
    intro s q h hlen
    have hg := (h f).getc
    cases hq : q f with
    | nil =>
      rw [hq] at hg
      refine ⟨s, by simp [catb, hg.1, popFront], ?_⟩
      rw [← hq, Function.update_eq_self, hq, List.append_nil,
        List.take_of_length_le (show _ ≤ RBSZ - 1 from Nat.le_pred_of_lt (h t).room), Function.update_eq_self]
      exact h
    | cons c w =>
      rw [hq] at hg hlen
      have h1 := holds_update h hg.2 f
      obtain ⟨s', he, hs'⟩ := ih _ _ (holds_update h1 ((h1 t).putc c.toNat).2 t) (by simpa [hft, popFront] using hlen)
      refine ⟨s', by simpa [catb, hg.1, popFront] using he, ?_⟩
      simpa only [popFront, Function.update_of_ne hft.symm, Function.update_of_ne hft, Function.update_self,
        pushBack_take c (h t).room, take_take_append, List.append_assoc, List.singleton_append,
        Function.update_comm hft, Function.update_idem] using hs'

/-- An operation that fits returns, and does to the rings what it may do to the queues. -/
theorem exec_spec {s : Bufs} {q : Queues} (h : ∀ b, Holds (s b) (q b)) {o : Op} (ok : Fits s o) :
    ∃ out s' q', exec s o = some (out, s') ∧ Spec q o out q' ∧ ∀ b, Holds (s' b) (q' b) := by
  cases o with
  | putc b c =>
    obtain ⟨he, hr⟩ := (h b).putc c
    exact ⟨_, _, _, rfl, ⟨congrArg _ he, rfl⟩, holds_update h hr b⟩
  | getc b =>
    obtain ⟨he, hr⟩ := (h b).getc
    exact ⟨_, _, _, rfl, ⟨congrArg _ he, rfl⟩, holds_update h hr b⟩
  | ungetc b c =>
    obtain ⟨he, hr⟩ := (h b).ungetc c
    exact ⟨_, _, _, rfl, ⟨congrArg _ he, rfl⟩, holds_update h hr b⟩
  | unputc b =>
    obtain ⟨he, hr⟩ := (h b).unputc
    exact ⟨_, _, _, rfl, ⟨congrArg _ he, rfl⟩, holds_update h hr b⟩
  | catb f t =>
    obtain ⟨hself, hroom⟩ := ok
    rw [(h f).len] at hself hroom
    rw [(h t).len] at hroom
    by_cases hft : f = t
    · subst hft
      have hq := List.length_eq_zero_iff.1 (hself rfl)
      have hg := (h f).getc
      rw [hq] at hg
      exact ⟨.unit, s, q, by simp [exec, catb, hg.1, popFront], ⟨rfl, rfl, fun _ _ _ => rfl⟩, h⟩
    · obtain ⟨s', he, hs'⟩ := catb_holds hft RBSZ s q h (h f).room
      refine ⟨.unit, s', _, by simp [exec, he], ⟨rfl, ?_, fun b hf ht => by simp [hf, ht]⟩, hs'⟩
      rw [Function.update_self, Function.update_of_ne hft, Function.update_self, List.append_nil,
        List.take_of_length_le (by simp only [List.length_append, RBSZ] at *; omega)]
  | contigPut b w =>
    obtain ⟨hroom, hend, hpos⟩ := (h b).contigput
    have := (h b).nums
    simp only [RBSZ] at hroom hend hpos
    have hl : (w.take (min w.length (RB_CONTIGPUT (s b)))).length = min w.length (RB_CONTIGPUT (s b)) := by simp
    have hp := (h b).put (w.take (min w.length (RB_CONTIGPUT (s b)))) (by rw [hl, RBSZ]; omega) (by rw [hl, RBSZ]; omega)
    rw [hl] at hp
    refine ⟨_, _, _, rfl, ⟨_, rfl, rfl, Nat.min_le_left _ _, fun h0 => ?_⟩, holds_update h hp b⟩
    have h0 : min w.length (RB_CONTIGPUT (s b)) = 0 := h0
    rw [← List.length_eq_zero_iff]
    simp only [RBSZ]
    omega
  | contigGet b m =>
    obtain ⟨hlen, hend, hpos⟩ := (h b).contigget
    have hn := (h b).nums
    rw [ne_eq, ← List.length_eq_zero_iff] at hpos
    have hg := (h b).get (n := min m (RB_CONTIGGET (s b))) (by omega) (by simp only [RBSZ] at *; omega)
    have hw : (List.range (min m (RB_CONTIGGET (s b)))).map (fun i => (s b).rb_buf ((s b).rb_hd + i)) =
        (q b).take (min m (RB_CONTIGGET (s b))) := by
      refine List.ext_getElem (by simp; omega) fun i hi hi' => ?_
      simp only [List.length_map, List.length_range] at hi
      simp only [RBSZ] at hend
      rw [List.getElem_take, ← (h b).bytes i (by omega), RBSZ, Nat.mod_eq_of_lt (by omega)]
      simp
    refine ⟨_, _, _, rfl, ⟨_, congrArg _ hw, rfl, Nat.min_le_left _ _, fun h0 => ?_⟩, holds_update h hg b⟩
    rw [← List.length_eq_zero_iff]
    omega

/-- From a ring with bytes to itself `catb` does not end: what it takes it puts back. -/
theorem catb_self {f : Nat} (n : Nat) : ∀ {s : Bufs} {q : List UInt8}, Holds (s f) q → q ≠ [] → catb n f f s = none := by
  induction n with
  | zero => exact fun _ _ => rfl
  | succ n ih =>
    intro s q h hne
    obtain ⟨c, w, rfl⟩ := List.exists_cons_of_ne_nil hne
    have hg := h.getc
    have hp := hg.2.putc c.toNat
    have hroom : w.length ≠ RBSZ - 1 := by have := h.nums; simp only [List.length_cons, RBSZ] at *; omega
    rw [popFront, pushBack, if_neg hroom] at hp
    simpa [catb, hg.1, popFront] using ih (by simpa using hp.2) (by simp)

/-- An operation that does what it may do fits. -/
theorem fits_of_spec {s s' : Bufs} {q q' : Queues} (h : ∀ b, Holds (s b) (q b)) {o : Op} {out : Out}
    (he : exec s o = some (out, s')) (hs : Spec q o out q') (hq : ∀ b, Shows (s' b) (q' b)) : Fits s o := by
  cases o with
  | catb f t =>
    by_cases hft : f = t
    · subst hft
      by_cases hz : q f = []
      · simp [Fits, (h f).len, hz]
      · rw [exec, catb_self RBSZ (h f) hz] at he
        cases he
    · obtain ⟨s₁, he₁, hs₁⟩ := catb_holds hft RBSZ s q h (h f).room
      rw [exec, he₁] at he
      cases he
      have hlen := congrArg List.length hs.2.1
      have hf := (hq f).len.symm.trans (hs₁ f).len
      have ht := (hq t).len.symm.trans (hs₁ t).len
      refine ⟨fun e => absurd e hft, ?_⟩
      rw [(h f).len, (h t).len]
      simp [hft] at hlen hf ht
      rw [hf, List.length_nil] at hlen
      simp only [RBSZ]
      omega
  | _ => trivial

theorem run_holds {s s' : Bufs} {tr : List (Op × Out)}
    (run : Run (fun s o out s' => exec s o = some (out, s') ∧ Fits s o) s tr s') :
    ∀ {q : Queues}, (∀ b, Holds (s b) (q b)) → ∃ q', Run Spec q tr q' ∧ ∀ b, Holds (s' b) (q' b) := by
  induction run with
  | nil s => exact fun {q} h => ⟨q, .nil q, h⟩
  | cons step _ ih =>
    intro q h
    obtain ⟨out, s', q', he, hspec, h'⟩ := exec_spec h step.2
    obtain ⟨rfl, rfl⟩ : out = _ ∧ s' = _ := by simpa using he.symm.trans step.1
    obtain ⟨q'', hrun, h''⟩ := ih h'
    exact ⟨q'', .cons hspec hrun, h''⟩

/-- A run whose `catb`s fit is a run of double-ended queues, each shown as it is by its ring, and the operations that
go on as such a run are those that fit. -/
theorem ring_refines_deque {s₀ s : Bufs} {tr : List (Op × Out)}
    (run : Run (fun s o out s' => exec s o = some (out, s') ∧ Fits s o) (fun b => initrb (s₀ b)) tr s) :
    ∃ q, Run Spec (fun _ => []) tr q ∧ (∀ b, Shows (s b) (q b)) ∧ ∀ o, Fits s o ↔
      ∃ out s' q', exec s o = some (out, s') ∧ Spec q o out q' ∧ ∀ b, Shows (s' b) (q' b) := by
  obtain ⟨q, hrun, h⟩ := run_holds run fun b => holds_init (s₀ b)
  refine ⟨q, hrun, fun b => (h b).shows, fun o => ⟨fun ok => ?_, fun ⟨_, _, _, he, hs, hq⟩ => fits_of_spec h he hs hq⟩⟩
  obtain ⟨out, s', q', he, hs, h'⟩ := exec_spec h ok
  exact ⟨out, s', q', he, hs, fun b => (h' b).shows⟩

theorem ring_refines_deque_catb : ∃ s q, Run Spec (fun _ => [])
    [(.putc 0 65, .value 0), (.catb 0 1, .unit), (.getc 1, .value 65)] q ∧ (∀ b, Shows (s b) (q b)) ∧
    ∀ o, Fits s o ↔ ∃ out s' q', exec s o = some (out, s') ∧ Spec q o out q' ∧ ∀ b, Shows (s' b) (q' b) :=
  ⟨_, @ring_refines_deque (fun _ => ⟨0, 0, fun _ => 0⟩) _ _
    (.cons ⟨rfl, trivial⟩ (.cons ⟨rfl, fun h => absurd h (by decide), by decide⟩ (.cons ⟨rfl, trivial⟩ (.nil _))))⟩

/-- With its target full, `catb` loses the byte it has taken from its source. -/
theorem catb_loses : ¬∀ (s₀ s : Bufs) (tr : List (Op × Out)),
    Run (fun s o out s' => exec s o = some (out, s')) (fun b => initrb (s₀ b)) tr s →
      ∃ q, Run Spec (fun _ => []) tr q ∧ ∀ b, Shows (s b) (q b) := by
  intro hall
  let s₀ : Bufs := fun _ => ⟨0, 0, fun _ => 0⟩
  obtain ⟨w, hw⟩ : ∃ w : List UInt8, w.length = 1023 := ⟨List.replicate 1023 0, List.length_replicate⟩
  have hmin : min w.length (RB_CONTIGPUT (initrb (s₀ 0))) = 1023 := by rw [hw]; rfl
  have hput : contigPut w (initrb (s₀ 0)) = (1023, ⟨0, RB_ROLLOVER (0 + w.length), memcpy (s₀ 0).rb_buf 0 w⟩) := by
    rw [contigPut, hmin, List.take_of_length_le (Nat.le_of_eq hw), hw]
    rfl
  have h0 : ∀ b, Holds (initrb (s₀ b)) [] := fun b => holds_init (s₀ b)
  have h1 := holds_update h0 ((h0 0).put w (by rw [hw]; decide) (by rw [hw]; decide)) 0
  obtain ⟨s, he, hs⟩ := catb_holds (show 1 ≠ 0 by decide) RBSZ _ _ (holds_update h1 ((h1 1).putc 7).2 1)
    (show 1 < RBSZ by decide)
  obtain ⟨q, hrun, hq⟩ := hall s₀ s [(.contigPut 0 w, .value 1023), (.putc 1 7, .value 0), (.catb 1 0, .unit)]
    (.cons (by rw [exec, hput]; rfl) (.cons rfl (.cons (by rw [exec]; exact congrArg _ he) (.nil _))))
  -- the queues hold 1024 bytes after the `catb`, the rings 1023
  rcases hrun with _ | ⟨⟨n, hn, rfl, -⟩, _ | ⟨⟨-, rfl⟩, _ | ⟨⟨-, hcat, -⟩, _ | _⟩⟩⟩
  obtain rfl : n = 1023 := by injection hn with hn; omega
  have hlen := congrArg List.length hcat
  have e0 := (hq 0).len.symm.trans (hs 0).len
  have e1 := (hq 1).len.symm.trans (hs 1).len
  simp [hw, pushBack] at hlen e0 e1
  simp [e0, e1] at hlen

end BsdKernel.Ring
