import BsdKernel.Lib.Trace
import BsdKernel.Net.Slcompress
/-!
# Framing on a serial line

`slstart`, `sl_btom` and `slinput` of `net/if_sl.c`. The sender puts the bytes of a
packet on the output queue of the tty, special ones in two characters, and a
`FRAME_END` behind them; when the queue was empty it puts one in front as well. The
receiver gets one character at a time and keeps a buffer pointer, an escape and an
error flag.

`slip_runs`: whatever came before, after the leading `FRAME_END` the receiver enqueues
the packets that were sent and nothing else; and whatever comes, a character is only
stored inside the buffer, and a packet that was not decompressed is at most `SLMAX`
long. What came before may itself pass for a packet (`slip_garbage`).
-/

namespace BsdKernel.Slip

open BsdKernel.Lib BsdKernel.Slcompress

variable {sc : Softc} {p : List Byte} {is : List Input}

def MCLBYTES : Nat := 1024
def MHLEN : Nat := 100
def SLIP_HDRLEN : Nat := 16
def BUFOFFSET : Nat := 128 + 4 + SLIP_HDRLEN
def SLMAX : Nat := MCLBYTES - BUFOFFSET
def SLBUFSIZE : Nat := SLMAX + BUFOFFSET

def FRAME_END : Byte := 0xc0
def FRAME_ESCAPE : Byte := 0xdb
def TRANS_FRAME_END : Byte := 0xdc
def TRANS_FRAME_ESCAPE : Byte := 0xdd

def ABT_ESC : Byte := 0x1b
def ABT_IDLE : Nat := 1
def ABT_COUNT : Nat := 3
def ABT_WINDOW : Nat := ABT_COUNT * 2 + 2

/-! ## The sender -/

/-- A character that goes out as it is. -/
def ordinary (c : Byte) : Bool := c ≠ FRAME_ESCAPE ∧ c ≠ FRAME_END

/-- The loop over one mbuf: `run` are the characters from `bp` to `cp`, put on the queue at once when a special one
or the end of the mbuf is reached. -/
def putLoop (run : List Byte) : List Byte → List Byte
  | [] => run
  | c :: cs =>
    if ordinary c then putLoop (run ++ [c]) cs
    else run ++ [FRAME_ESCAPE, if c = FRAME_ESCAPE then TRANS_FRAME_ESCAPE else TRANS_FRAME_END] ++ putLoop [] cs

/-- A packet as `slstart` finds it: its mbufs, and whether the output queue is empty. -/
structure Sent where
  mbufs : List (List Byte)
  idle : Bool
  deriving DecidableEq, Repr

def Sent.bytes (m : Sent) : List Byte := m.mbufs.flatten

/-- What `slstart` puts on the queue for a packet, with room for all of it and no compression. -/
def slstart (m : Sent) : List Byte :=
  (if m.idle then [FRAME_END] else []) ++ m.mbufs.flatMap (putLoop []) ++ [FRAME_END]

/-! ## The receiver -/

/-- A call of `slinput`: the character, whether it is marked (or there is no carrier), the time, and what
`MGETHDR`, `MCLGET` and `IF_QFULL` answer if they are asked; a new cluster is given by its address. -/
structure Input where
  c : Byte
  bad : Bool
  now : Nat
  mget : Bool
  mclget : Option Int
  qfull : Bool
  deriving DecidableEq, Repr

/-- `struct sl_softc` and the memory that its buffer is in. -/
structure Softc where
  /-- `t_sc` is not null -/
  attached : Bool
  buf : Int
  mp : Int
  ep : Int
  mem : Mem
  escape : Bool
  /-- `SC_ERROR` -/
  error : Bool
  /-- `SC_COMPRESS` -/
  compress : Bool
  /-- `SC_AUTOCOMP` -/
  autocomp : Bool
  /-- `IFF_DEBUG` -/
  debug : Bool
  abortcount : Nat
  starttime : Nat
  lasttime : Nat
  /-- `sc_bpf` is not null -/
  bpf : Bool
  comp : Receive
  /-- what was put on `ipintrq`, in order -/
  ipintrq : List (List Byte)

/-- After `slinit` with the cluster at `cl`. -/
def slinit (cl : Int) (mem : Mem) (autocomp debug bpf : Bool) : Softc where
  attached := true
  buf := cl + SLBUFSIZE - SLMAX
  mp := cl + SLBUFSIZE - SLMAX
  ep := cl + SLBUFSIZE
  mem
  escape := false
  error := false
  compress := false
  autocomp
  debug
  abortcount := 0
  starttime := 0
  lasttime := 0
  bpf
  comp := Receive.init
  ipintrq := []

/-- `slclose`, as far as the receiver sees it. -/
def slclose (sc : Softc) : Softc := { sc with attached := false, ep := 0, mp := 0, buf := 0 }

/-- The abort escape of an interface with `IFF_DEBUG`. -/
def abortEscape (sc : Softc) (c : Byte) (now : Nat) : Softc :=
  if sc.debug = false then sc
  else if c = ABT_ESC then
    let sc := if sc.abortcount ≠ 0 ∧ now ≥ sc.starttime + ABT_WINDOW then { sc with abortcount := 0 } else sc
    if now ≥ sc.lasttime + ABT_IDLE then
      let sc := { sc with
        abortcount := sc.abortcount + 1
        starttime := if sc.abortcount + 1 = 1 then now else sc.starttime }
      if sc.abortcount ≥ ABT_COUNT then slclose sc else { sc with lasttime := now }
    else { sc with lasttime := now }
  else { sc with abortcount := 0, lasttime := now }

/-- `newpack:` -/
def newpack (sc : Softc) : Softc := { sc with buf := sc.ep - SLMAX, mp := sc.ep - SLMAX, escape := false }

/-- The end of `slinput`, for a character of a packet. -/
def storeChar (sc : Softc) (c : Byte) : Softc :=
  if sc.mp < sc.ep then { sc with mem := set8 sc.mem sc.mp c, mp := sc.mp + 1, escape := false }
  else newpack { sc with error := true }

/-- The call of `sl_uncompress_tcp`, with the length it leaves; 0 is an error. -/
def uncompress (sc : Softc) (type len : Nat) : Softc × Nat :=
  match slUncompressTcp sc.comp ⟨type, sc.buf, sc.mem, len⟩ with
  | some r => ({ sc with comp := r.comp, buf := r.bufp, mem := r.buf }, r.ret)
  | none => (sc, 0)

/-- The part of a frame end that looks at the IP version, with the length of the packet; 0 is an error. -/
def unpack (sc : Softc) (len : Nat) : Softc × Nat :=
  let c := sc.mem sc.buf &&& 0xf0
  if c = 0x40 then (sc, len)
  else
    let type := if c &&& 0x80 ≠ 0 then TYPE_COMPRESSED_TCP else c.toNat
    let sc := if c &&& 0x80 = 0 ∧ c.toNat = TYPE_UNCOMPRESSED_TCP then
      { sc with mem := set8 sc.mem sc.buf (sc.mem sc.buf &&& 0x4f) } else sc
    if sc.compress then uncompress sc type len
    else if sc.autocomp ∧ type = TYPE_UNCOMPRESSED_TCP ∧ len ≥ 40 then
      let (sc, len) := uncompress sc type len
      ({ sc with compress := sc.compress || len ≠ 0 }, len)
    else (sc, 0)

/-- The pseudo link header for bpf; `chdr` is what was at the start of the buffer. -/
def bpfHeader (sc : Softc) (chdr : Mem) : Softc :=
  if sc.bpf then
    { sc with mem := copy (set8 sc.mem (sc.buf - SLIP_HDRLEN) 0) (sc.buf - SLIP_HDRLEN + 1) chdr 0 (SLIP_HDRLEN - 1) }
  else sc

/-- From `sl_btom` to the end. -/
def deliver (sc : Softc) (len : Nat) (i : Input) : Softc :=
  let packet := bytesAt sc.mem sc.buf len
  let enqueue (sc : Softc) : Softc := if i.qfull then sc else { sc with ipintrq := sc.ipintrq ++ [packet] }
  if i.mget = false then newpack sc
  else if len ≥ MHLEN then
    match i.mclget with
    | none => newpack sc
    | some cl => newpack (enqueue { sc with ep := cl + SLBUFSIZE })
  else newpack (enqueue sc)

/-- `case FRAME_END` -/
def frameEnd (sc : Softc) (i : Input) : Softc :=
  if sc.error then newpack { sc with error := false }
  else
    let len := sc.mp - sc.buf
    if len < 3 then newpack sc
    else
      let chdr : Mem := fun j => sc.mem (sc.buf + j)
      let (sc, len) := unpack sc len.toNat
      if len = 0 then newpack sc else deliver (bpfHeader sc chdr) len i

def slinput (sc : Softc) (i : Input) : Softc :=
  if sc.attached = false then sc
  else if i.bad then { sc with error := true }
  else
    let sc := abortEscape sc i.c i.now
    if sc.attached = false then sc
    else if i.c = FRAME_ESCAPE then { sc with escape := true }
    else if i.c = FRAME_END then frameEnd sc i
    else if i.c = TRANS_FRAME_ESCAPE ∧ sc.escape then storeChar sc FRAME_ESCAPE
    else if i.c = TRANS_FRAME_END ∧ sc.escape then storeChar sc FRAME_END
    else storeChar sc i.c

/-! ## What is on the line -/

/-- A character as it goes out. -/
def escaped (c : Byte) : List Byte :=
  if c = FRAME_ESCAPE then [FRAME_ESCAPE, TRANS_FRAME_ESCAPE]
  else if c = FRAME_END then [FRAME_ESCAPE, TRANS_FRAME_END]
  else [c]

theorem escaped_ordinary {c : Byte} (h : ordinary c = true) : escaped c = [c] := by
  simp only [ordinary, decide_eq_true_eq] at h
  rw [escaped, if_neg h.1, if_neg h.2]

theorem putLoop_eq (run bs : List Byte) : putLoop run bs = run ++ bs.flatMap escaped := by
  induction bs generalizing run with
  | nil => simp [putLoop]
  | cons c bs ih =>
    rw [putLoop, List.flatMap_cons]
    split
    · rename_i hc
      rw [ih, escaped_ordinary hc, List.append_assoc]
    · rename_i hc
      rw [ih, List.nil_append, List.append_assoc]
      simp only [ordinary, decide_eq_true_eq, not_and_or, not_not] at hc
      by_cases hesc : c = FRAME_ESCAPE
      · simp [escaped, hesc]
      · have hne : FRAME_END ≠ FRAME_ESCAPE := by decide
        simp [escaped, hc.resolve_left hesc, hne]

theorem slstart_eq (m : Sent) :
    slstart m = (if m.idle then [FRAME_END] else []) ++ m.bytes.flatMap escaped ++ [FRAME_END] := by
  have hloop : putLoop [] = fun bs => bs.flatMap escaped := by
    funext bs
    simp [putLoop_eq]
  rw [slstart, Sent.bytes, hloop, ← List.flatMap_id, List.flatMap_assoc]
  rfl

/-! ## The buffer -/

/-- The pointers between two characters. -/
structure Sane (sc : Softc) : Prop where
  start : sc.attached = true → sc.buf = sc.ep - SLMAX
  low : sc.buf ≤ sc.mp
  high : sc.mp ≤ sc.ep

/-- The frame is given to `sl_uncompress_tcp`. -/
def Decompresses (sc : Softc) : Prop := sc.mem sc.buf &&& 0xf0 ≠ 0x40 ∧ (sc.compress = true ∨ sc.autocomp = true)

theorem newpack_sane (sc : Softc) : Sane (newpack sc) where
  start _ := rfl
  low := by simp [newpack]
  high := by simp only [newpack]; omega

theorem storeChar_sane (h : Sane sc) (c : Byte) : Sane (storeChar sc c) := by
  unfold storeChar
  split
  · have hlow := h.low
    exact ⟨h.start, by simp only; omega, by simp only; omega⟩
  · exact newpack_sane _

theorem abortEscape_cases (sc : Softc) (c : Byte) (now : Nat) :
    (∃ n start last, abortEscape sc c now = { sc with abortcount := n, starttime := start, lasttime := last }) ∨
      ∃ n start, abortEscape sc c now = slclose { sc with abortcount := n, starttime := start } := by
  unfold abortEscape
  dsimp only
  split_ifs
  all_goals first
    | exact .inl ⟨_, _, _, rfl⟩
    | exact .inr ⟨_, _, rfl⟩

theorem deliver_sane (sc : Softc) (len : Nat) (i : Input) : Sane (deliver sc len i) := by
  unfold deliver
  dsimp only
  split
  · exact newpack_sane _
  · split
    · split <;> exact newpack_sane _
    · exact newpack_sane _

theorem frameEnd_sane (sc : Softc) (i : Input) : Sane (frameEnd sc i) := by
  unfold frameEnd
  dsimp only
  split
  · exact newpack_sane _
  · split
    · exact newpack_sane _
    · split
      · exact newpack_sane _
      · exact deliver_sane _ _ i

/-- Where a character goes when the line is open and it carries no mark. -/
theorem slinput_cases (sc : Softc) (i : Input) :
    slinput sc i = sc ∨ slinput sc i = { sc with error := true } ∨
    (∃ n start, slinput sc i = slclose { sc with abortcount := n, starttime := start }) ∨
    ∃ sc', (∃ n start last, sc' = { sc with abortcount := n, starttime := start, lasttime := last }) ∧
      (slinput sc i = { sc' with escape := true } ∨ i.c = FRAME_END ∧ slinput sc i = frameEnd sc' i ∨
        ∃ c, slinput sc i = storeChar sc' c) := by
  unfold slinput
  split
  · exact .inl rfl
  rename_i hatt
  split
  · exact .inr (.inl rfl)
  refine .inr (.inr ?_)
  dsimp only
  rcases abortEscape_cases sc i.c i.now with ⟨n, st, last, heq⟩ | ⟨n, st, heq⟩
  · right
    refine ⟨_, ⟨n, st, last, rfl⟩, ?_⟩
    rw [heq, if_neg (by simpa using hatt)]
    split_ifs with h1 h2
    · exact .inl rfl
    · exact .inr (.inl ⟨h2, rfl⟩)
    · exact .inr (.inr ⟨_, rfl⟩)
    · exact .inr (.inr ⟨_, rfl⟩)
    · exact .inr (.inr ⟨_, rfl⟩)
  · left
    exact ⟨n, st, by rw [heq, if_pos (show (slclose _).attached = false from rfl)]⟩

theorem slinput_sane (h : Sane sc) (i : Input) : Sane (slinput sc i) := by
  have hmove : ∀ sc' : Softc, sc'.attached = sc.attached → sc'.buf = sc.buf → sc'.mp = sc.mp → sc'.ep = sc.ep → Sane sc' := by
    intro sc' ha hb hm he
    exact ⟨by rw [ha, hb, he]; exact h.start, by rw [hb, hm]; exact h.low, by rw [hm, he]; exact h.high⟩
  rcases slinput_cases sc i with heq | heq | ⟨n, st, heq⟩ | ⟨sc', ⟨n, st, last, rfl⟩, heq | ⟨-, heq⟩ | ⟨c, heq⟩⟩
  · rwa [heq]
  · rw [heq]
    exact hmove _ rfl rfl rfl rfl
  · rw [heq]
    exact ⟨by simp [slclose], by simp [slclose], by simp [slclose]⟩
  · rw [heq]
    exact hmove _ rfl rfl rfl rfl
  · rw [heq]
    exact frameEnd_sane _ i
  · rw [heq]
    apply storeChar_sane
    exact hmove _ rfl rfl rfl rfl

theorem unpack_plain (h : ¬Decompresses sc) (len : Nat) :
    unpack sc len = (sc, len) ∨
      ∃ m : Mem, unpack sc len = ({ sc with mem := m }, 0) ∧ ∀ a, a ≠ sc.buf → m a = sc.mem a := by
  unfold unpack
  dsimp only
  split
  · exact .inl rfl
  rename_i hc
  right
  have hoff : sc.compress = false ∧ sc.autocomp = false := by
    simp only [Decompresses, not_and_or, not_or, Bool.not_eq_true] at h
    exact h.resolve_left (by simpa using hc)
  split_ifs
  all_goals first
    | simp_all; done
    | exact ⟨_, rfl, fun a ha => set8_ne ha⟩
    | exact ⟨_, rfl, fun a _ => rfl⟩

theorem deliver_mem (sc : Softc) (len : Nat) (i : Input) : (deliver sc len i).mem = sc.mem := by
  unfold deliver newpack
  dsimp only
  split
  · rfl
  · split
    · split
      · rfl
      · dsimp only
        split <;> rfl
    · split <;> rfl

theorem deliver_queue (sc : Softc) (len : Nat) (i : Input) : (deliver sc len i).ipintrq = sc.ipintrq ∨
    (deliver sc len i).ipintrq = sc.ipintrq ++ [bytesAt sc.mem sc.buf len] := by
  unfold deliver newpack
  dsimp only
  split
  · exact .inl rfl
  · split
    · split
      · exact .inl rfl
      · dsimp only
        split
        · exact .inl rfl
        · exact .inr rfl
    · split
      · exact .inl rfl
      · exact .inr rfl

theorem bpfHeader_mem {chdr : Mem} {a : Int} (ha : ¬(sc.bpf = true ∧ sc.buf - SLIP_HDRLEN ≤ a ∧ a < sc.buf)) :
    (bpfHeader sc chdr).mem a = sc.mem a := by
  unfold bpfHeader
  split
  · rename_i hbpf
    have hout : a < sc.buf - SLIP_HDRLEN ∨ sc.buf ≤ a := by
      by_contra hin
      exact ha ⟨hbpf, by omega, by omega⟩
    have hlen : ((SLIP_HDRLEN - 1 : Nat) : Int) = SLIP_HDRLEN - 1 := rfl
    dsimp only
    rw [copy_out (by rw [hlen]; omega), set8_ne (by unfold SLIP_HDRLEN at hout ⊢; omega)]
  · rfl

@[simp] theorem bpfHeader_queue (sc : Softc) (chdr : Mem) : (bpfHeader sc chdr).ipintrq = sc.ipintrq := by
  unfold bpfHeader
  split <;> rfl

@[simp] theorem bpfHeader_buf (sc : Softc) (chdr : Mem) : (bpfHeader sc chdr).buf = sc.buf := by
  unfold bpfHeader
  split <;> rfl

/-- What a frame end does to the memory and the queue when nothing is decompressed. -/
theorem frameEnd_effect (h : Sane sc) (ha : sc.attached = true) (hd : ¬Decompresses sc) (i : Input) :
    (∀ a, (frameEnd sc i).mem a ≠ sc.mem a →
      sc.buf ≤ a ∧ a < sc.ep ∨ sc.bpf = true ∧ sc.buf - SLIP_HDRLEN ≤ a ∧ a < sc.buf) ∧
    ((frameEnd sc i).ipintrq = sc.ipintrq ∨ ∃ p, p.length ≤ SLMAX ∧ (frameEnd sc i).ipintrq = sc.ipintrq ++ [p]) := by
  have hstart := h.start ha
  have hhigh := h.high
  unfold frameEnd
  dsimp only
  split
  · exact ⟨fun a hne => absurd rfl hne, .inl rfl⟩
  split
  · exact ⟨fun a hne => absurd rfl hne, .inl rfl⟩
  rename_i hlen
  rcases unpack_plain hd (sc.mp - sc.buf).toNat with heq | ⟨m, heq, hm⟩
  · rw [heq]
    dsimp only
    rw [if_neg (by omega)]
    constructor
    · intro a hne
      rw [deliver_mem] at hne
      by_contra hin
      exact hne (bpfHeader_mem (fun hb => hin (.inr hb)))
    · rcases deliver_queue (bpfHeader sc _) (sc.mp - sc.buf).toNat i with hq | hq
      · exact .inl (by rw [hq, bpfHeader_queue])
      · refine .inr ⟨_, ?_, by rw [hq, bpfHeader_queue]⟩
        rw [bytesAt_length]
        omega
  · rw [heq]
    dsimp only
    rw [if_pos rfl]
    refine ⟨fun a hne => .inl ?_, .inl rfl⟩
    by_cases hab : a = sc.buf
    · omega
    · exact absurd (hm a hab) hne

/-- A character changes the memory inside the buffer only, or in the link header for bpf before it; and a packet
that is not decompressed is at most `SLMAX` long. -/
theorem slinput_effect (h : Sane sc) (i : Input) (hd : i.c = FRAME_END → ¬Decompresses sc) :
    (∀ a, (slinput sc i).mem a ≠ sc.mem a →
      sc.buf ≤ a ∧ a < sc.ep ∨ sc.bpf = true ∧ sc.buf - SLIP_HDRLEN ≤ a ∧ a < sc.buf) ∧
    ((slinput sc i).ipintrq = sc.ipintrq ∨ ∃ p, p.length ≤ SLMAX ∧ (slinput sc i).ipintrq = sc.ipintrq ++ [p]) := by
  by_cases ha : sc.attached = true
  · rcases slinput_cases sc i with heq | heq | ⟨n, st, heq⟩ | ⟨sc', ⟨n, st, last, rfl⟩, heq | ⟨hc, heq⟩ | ⟨c, heq⟩⟩
    · exact ⟨fun a hne => absurd (by rw [heq]) hne, .inl (by rw [heq])⟩
    · exact ⟨fun a hne => absurd (by rw [heq]) hne, .inl (by rw [heq])⟩
    · exact ⟨fun a hne => absurd (by rw [heq]; rfl) hne, .inl (by rw [heq]; rfl)⟩
    · exact ⟨fun a hne => absurd (by rw [heq]) hne, .inl (by rw [heq])⟩
    · rw [heq]
      have hsane : Sane { sc with abortcount := n, starttime := st, lasttime := last } := ⟨h.start, h.low, h.high⟩
      exact frameEnd_effect hsane ha (hd hc) i
    · rw [heq]
      have hlow := h.low
      unfold storeChar
      dsimp only
      split
      · refine ⟨fun a hne => .inl ?_, .inl rfl⟩
        by_cases hmp : a = sc.mp
        · omega
        · exact absurd (set8_ne hmp) hne
      · exact ⟨fun a hne => absurd rfl hne, .inl rfl⟩
  · have heq : slinput sc i = sc := by simp [slinput, ha]
    exact ⟨fun a hne => absurd (by rw [heq]) hne, .inl (by rw [heq])⟩

/-! ## The round trip -/

/-- A call with an unmarked character, while there are mbufs and room on `ipintrq`. -/
structure Ample (i : Input) : Prop where
  good : i.bad = false
  mget : i.mget = true
  mclget : i.mclget.isSome = true
  room : i.qfull = false

/-- A packet that may be sent: its length, and the IP version in its first byte. -/
structure Sendable (bs : List Byte) : Prop where
  long : 3 ≤ bs.length
  short : bs.length ≤ SLMAX
  version : ∃ b, bs[0]? = some b ∧ b &&& 0xf0 = 0x40

/-- The receiver has the bytes `p` of a packet. -/
structure Reading (sc : Softc) (p : List Byte) : Prop where
  attached : sc.attached = true
  debug : sc.debug = false
  error : sc.error = false
  escape : sc.escape = false
  start : sc.buf = sc.ep - SLMAX
  mp : sc.mp = sc.buf + p.length
  bytes : bytesAt sc.mem sc.buf p.length = p

/-- An open line, in any state. -/
structure Listening (sc : Softc) : Prop where
  attached : sc.attached = true
  debug : sc.debug = false

theorem Listening.slinput (h : Listening sc) {i : Input} (hi : i.bad = false) : slinput sc i =
    if i.c = FRAME_ESCAPE then { sc with escape := true }
    else if i.c = FRAME_END then frameEnd sc i
    else if i.c = TRANS_FRAME_ESCAPE ∧ sc.escape then storeChar sc FRAME_ESCAPE
    else if i.c = TRANS_FRAME_END ∧ sc.escape then storeChar sc FRAME_END
    else storeChar sc i.c := by
  have habort : abortEscape sc i.c i.now = sc := by simp [abortEscape, h.debug]
  unfold Slip.slinput
  simp only [h.attached, hi, habort, Bool.true_eq_false, Bool.false_eq_true, if_false]

theorem Reading.listening (h : Reading sc p) : Listening sc := ⟨h.attached, h.debug⟩

/-- The escape flag aside, a character that is stored is the next byte of the packet. -/
theorem Reading.storeChar (h : Reading sc p) (c : Byte) (hp : p.length < SLMAX) (e : Bool) :
    Reading (storeChar { sc with escape := e } c) (p ++ [c]) ∧
      (Slip.storeChar { sc with escape := e } c).ipintrq = sc.ipintrq := by
  have hstart := h.start
  have hmp := h.mp
  have hroom : sc.mp < sc.ep := by omega
  unfold Slip.storeChar
  rw [if_pos hroom]
  refine ⟨⟨h.attached, h.debug, h.error, rfl, hstart, ?_, ?_⟩, rfl⟩
  · simp only [List.length_append, List.length_singleton]
    omega
  · have hold : bytesAt (set8 sc.mem sc.mp c) sc.buf p.length = p :=
      (bytesAt_congr fun j hj => set8_ne (by omega)).trans h.bytes
    rw [List.length_append, List.length_singleton, bytesAt_add]
    simp only [hold, bytesAt]
    rw [← hmp, set8_same]

theorem two_inputs {c c' : Byte} (h : is.map Input.c = [c, c']) : ∃ i i', is = [i, i'] ∧ i.c = c ∧ i'.c = c' := by
  obtain ⟨i, rest, rfl, hi, hrest⟩ := List.map_eq_cons_iff.1 h
  obtain ⟨i', rest', rfl, hi', hnil⟩ := List.map_eq_cons_iff.1 hrest
  rw [List.map_eq_nil_iff.1 hnil]
  exact ⟨i, i', rfl, hi, hi'⟩

/-- The characters of one byte. -/
theorem Reading.escaped (h : Reading sc p) (c : Byte) (hp : p.length < SLMAX) (his : is.map Input.c = escaped c)
    (hgood : ∀ i ∈ is, Ample i) :
    Reading (final slinput sc is) (p ++ [c]) ∧ (final slinput sc is).ipintrq = sc.ipintrq := by
  -- an escape leaves the flag, and the character behind it is stored as what it stands for
  have hpair : ∀ i i' : Input, i.bad = false → i'.bad = false → i.c = FRAME_ESCAPE →
      (i'.c = TRANS_FRAME_ESCAPE ∧ c = FRAME_ESCAPE ∨ i'.c = TRANS_FRAME_END ∧ c = FRAME_END) →
      slinput (slinput sc i) i' = Slip.storeChar { sc with escape := true } c := by
    intro i i' hi hi' hesc hc
    have hmid : slinput sc i = { sc with escape := true } := by rw [h.listening.slinput hi, if_pos hesc]
    have hlisten : Listening { sc with escape := true } := ⟨h.attached, h.debug⟩
    rw [hmid, hlisten.slinput hi']
    rcases hc with ⟨hc, rfl⟩ | ⟨hc, rfl⟩
    · rw [hc, if_neg (by decide), if_neg (by decide), if_pos ⟨rfl, rfl⟩]
    · have hother : ¬(TRANS_FRAME_END = TRANS_FRAME_ESCAPE ∧ true = true) := by decide
      rw [hc, if_neg (by decide), if_neg (by decide), if_neg hother, if_pos ⟨rfl, rfl⟩]
  unfold Slip.escaped at his
  split at his
  · rename_i hc
    obtain ⟨i, i', rfl, hi, hi'⟩ := two_inputs his
    have hrun : final slinput sc [i, i'] = Slip.storeChar { sc with escape := true } c :=
      hpair i i' (hgood i (by simp)).good (hgood i' (by simp)).good hi (.inl ⟨hi', hc⟩)
    rw [hrun]
    exact h.storeChar c hp true
  · split at his
    · rename_i hc
      obtain ⟨i, i', rfl, hi, hi'⟩ := two_inputs his
      have hrun : final slinput sc [i, i'] = Slip.storeChar { sc with escape := true } c :=
        hpair i i' (hgood i (by simp)).good (hgood i' (by simp)).good hi (.inr ⟨hi', hc⟩)
      rw [hrun]
      exact h.storeChar c hp true
    · rename_i hne hne'
      obtain ⟨i, rfl, hi⟩ := List.map_eq_singleton_iff.1 his
      have hsame : sc = { sc with escape := false } := by rw [← h.escape]
      have hrun : final slinput sc [i] = Slip.storeChar { sc with escape := false } c := by
        rw [← hsame]
        change slinput sc i = _
        rw [h.listening.slinput (hgood i (by simp)).good, hi, if_neg hne, if_neg hne', if_neg (by simp [h.escape]),
          if_neg (by simp [h.escape])]
      rw [hrun]
      exact h.storeChar c hp false

theorem final_append (is is' : List Input) :
    final slinput sc (is ++ is') = final slinput (final slinput sc is) is' := by
  rw [final, final, final, List.foldl_append]

theorem Reading.run (h : Reading sc p) (q : List Byte) (hq : p.length + q.length ≤ SLMAX)
    (his : is.map Input.c = q.flatMap Slip.escaped) (hgood : ∀ i ∈ is, Ample i) :
    Reading (final slinput sc is) (p ++ q) ∧ (final slinput sc is).ipintrq = sc.ipintrq := by
  induction q generalizing sc p is with
  | nil =>
    rw [List.map_eq_nil_iff.1 his, List.append_nil]
    exact ⟨h, rfl⟩
  | cons c q ih =>
    rw [List.flatMap_cons] at his
    rw [List.length_cons] at hq
    obtain ⟨is₁, is₂, rfl, h₁, h₂⟩ := List.map_eq_append_iff.1 his
    obtain ⟨hread, hqueue⟩ := h.escaped c (by omega) h₁ fun i hi => hgood i (List.mem_append_left _ hi)
    obtain ⟨hread', hqueue'⟩ := ih hread (by rw [List.length_append, List.length_singleton]; omega) h₂
      fun i hi => hgood i (List.mem_append_right _ hi)
    rw [final_append, List.append_cons]
    exact ⟨hread', hqueue'.trans hqueue⟩

theorem newpack_reading (h : Listening sc) (he : sc.error = false) : Reading (newpack sc) [] where
  attached := h.attached
  debug := h.debug
  error := he
  escape := rfl
  start := rfl
  mp := by simp [newpack]
  bytes := rfl

theorem uncompress_flags (sc : Softc) (type len : Nat) : (uncompress sc type len).1.attached = sc.attached ∧
    (uncompress sc type len).1.debug = sc.debug ∧ (uncompress sc type len).1.error = sc.error := by
  unfold uncompress
  split <;> exact ⟨rfl, rfl, rfl⟩

theorem unpack_flags (sc : Softc) (len : Nat) : (unpack sc len).1.attached = sc.attached ∧
    (unpack sc len).1.debug = sc.debug ∧ (unpack sc len).1.error = sc.error := by
  unfold unpack
  dsimp only
  split_ifs
  all_goals first
    | exact ⟨rfl, rfl, rfl⟩
    | exact uncompress_flags _ _ _

theorem deliver_reading (h : Listening sc) (he : sc.error = false) (len : Nat) (i : Input) :
    Reading (deliver sc len i) [] := by
  unfold deliver
  dsimp only
  split
  · exact newpack_reading h he
  · split
    · split
      · exact newpack_reading h he
      · split <;> exact newpack_reading ⟨h.attached, h.debug⟩ he
    · split <;> exact newpack_reading ⟨h.attached, h.debug⟩ he

theorem bpfHeader_listening (h : Listening sc) (he : sc.error = false) (chdr : Mem) :
    Listening (bpfHeader sc chdr) ∧ (bpfHeader sc chdr).error = false := by
  unfold bpfHeader
  split
  · exact ⟨⟨h.attached, h.debug⟩, he⟩
  · exact ⟨h, he⟩

theorem Listening.frameEnd (h : Listening sc) (i : Input) : Reading (frameEnd sc i) [] := by
  unfold Slip.frameEnd
  dsimp only
  split
  · exact newpack_reading ⟨h.attached, h.debug⟩ rfl
  rename_i herror
  split
  · exact newpack_reading h (by simpa using herror)
  obtain ⟨hatt, hdebug, herr⟩ := unpack_flags sc (sc.mp - sc.buf).toNat
  have hlisten : Listening (unpack sc (sc.mp - sc.buf).toNat).1 := ⟨hatt.trans h.attached, hdebug.trans h.debug⟩
  have herr' : (unpack sc (sc.mp - sc.buf).toNat).1.error = false := herr.trans (by simpa using herror)
  split
  · exact newpack_reading hlisten herr'
  · obtain ⟨hb, hbe⟩ := bpfHeader_listening hlisten herr' fun j => sc.mem (sc.buf + j)
    exact deliver_reading hb hbe _ i

/-- The frame end behind a packet enqueues it. -/
theorem Reading.frameEnd (h : Reading sc p) (hp : Sendable p) {i : Input} (hi : Ample i) :
    (frameEnd sc i).ipintrq = sc.ipintrq ++ [p] := by
  have hlong := hp.long
  have hlen : sc.mp - sc.buf = p.length := by
    have := h.mp
    omega
  obtain ⟨b, hb, hversion⟩ := hp.version
  have hfirst : sc.mem sc.buf = b := by
    have hget := bytesAt_get (m := sc.mem) (a := sc.buf) (n := p.length) (i := 0) (by omega)
    rw [h.bytes, hb] at hget
    simpa using (Option.some.inj hget).symm
  have hunpack : unpack sc p.length = (sc, p.length) := by
    unfold unpack
    dsimp only
    rw [hfirst, if_pos hversion]
  have hbytes : bytesAt (bpfHeader sc fun j => sc.mem (sc.buf + j)).mem sc.buf p.length = p :=
    (bytesAt_congr fun j hj => bpfHeader_mem (by omega)).trans h.bytes
  unfold Slip.frameEnd
  dsimp only
  rw [if_neg (by simp [h.error]), if_neg (by omega), hlen, Int.toNat_natCast, hunpack]
  dsimp only
  rw [if_neg (by omega)]
  obtain ⟨cl, hcl⟩ := Option.isSome_iff_exists.1 hi.mclget
  unfold deliver newpack
  dsimp only
  rw [if_neg (by simp [hi.mget]), hcl, bpfHeader_buf, hbytes]
  split <;> simp [hi.room]

/-- A frame end enqueues at most one packet. -/
theorem frameEnd_queue (sc : Softc) (i : Input) :
    (frameEnd sc i).ipintrq = sc.ipintrq ∨ ∃ g, (frameEnd sc i).ipintrq = sc.ipintrq ++ [g] := by
  have huncompress : ∀ (sc : Softc) (type len : Nat), (uncompress sc type len).1.ipintrq = sc.ipintrq := by
    intro sc type len
    unfold uncompress
    split <;> rfl
  have hunpack : ∀ len, (unpack sc len).1.ipintrq = sc.ipintrq := by
    intro len
    unfold unpack
    dsimp only
    split_ifs
    all_goals first
      | rfl
      | exact huncompress _ _ _
  unfold frameEnd
  dsimp only
  split
  · exact .inl rfl
  split
  · exact .inl rfl
  split
  · exact .inl (hunpack _)
  · rcases deliver_queue (bpfHeader (unpack sc (sc.mp - sc.buf).toNat).1 fun j => sc.mem (sc.buf + j))
      (unpack sc (sc.mp - sc.buf).toNat).2 i with hq | hq
    · exact .inl (by rw [hq, bpfHeader_queue, hunpack])
    · exact .inr ⟨_, by rw [hq, bpfHeader_queue, hunpack]⟩

theorem Reading.frameEnd_empty (h : Reading sc []) (i : Input) : (Slip.frameEnd sc i).ipintrq = sc.ipintrq := by
  have hmp : sc.mp = sc.buf := by simpa using h.mp
  unfold Slip.frameEnd
  dsimp only
  rw [if_neg (by simp [h.error]), if_pos (by omega)]
  rfl

theorem Listening.slinput_end (h : Listening sc) {i : Input} (hi : i.bad = false) (hc : i.c = FRAME_END) :
    Slip.slinput sc i = Slip.frameEnd sc i := by
  rw [h.slinput hi, hc, if_neg (by decide), if_pos rfl]

/-- The characters of a packet from the start of it on. -/
theorem Reading.packet (h : Reading sc []) {m : Sent} (hm : Sendable m.bytes) (his : is.map Input.c = slstart m)
    (hgood : ∀ i ∈ is, Ample i) :
    Reading (final slinput sc is) [] ∧ (final slinput sc is).ipintrq = sc.ipintrq ++ [m.bytes] := by
  rw [slstart_eq, List.append_assoc] at his
  obtain ⟨lead, is', rfl, hlead, his'⟩ := List.map_eq_append_iff.1 his
  obtain ⟨body, last, rfl, hbody, hlast⟩ := List.map_eq_append_iff.1 his'
  obtain ⟨i, rfl, hi⟩ := List.map_eq_singleton_iff.1 hlast
  have hstart : Reading (final slinput sc lead) [] ∧ (final slinput sc lead).ipintrq = sc.ipintrq := by
    split at hlead
    · obtain ⟨j, rfl, hj⟩ := List.map_eq_singleton_iff.1 hlead
      have hrun : final slinput sc [j] = Slip.frameEnd sc j := h.listening.slinput_end (hgood j (by simp)).good hj
      rw [hrun]
      exact ⟨h.listening.frameEnd j, h.frameEnd_empty j⟩
    · rw [List.map_eq_nil_iff.1 hlead]
      exact ⟨h, rfl⟩
  obtain ⟨hread, hqueue⟩ := hstart.1.run m.bytes (by simpa using hm.short) hbody
    fun j hj => hgood j (by simp [hj])
  rw [List.nil_append] at hread
  have hend := hread.listening.slinput_end (hgood i (by simp)).good hi
  rw [final_append, final_append]
  change Reading (slinput _ i) [] ∧ (slinput _ i).ipintrq = _
  rw [hend, hread.frameEnd hm (hgood i (by simp)), hqueue, hstart.2]
  exact ⟨hread.listening.frameEnd i, rfl⟩

theorem Reading.packets (h : Reading sc []) {ms : List Sent} (hms : ∀ m ∈ ms, Sendable m.bytes)
    (his : is.map Input.c = ms.flatMap slstart) (hgood : ∀ i ∈ is, Ample i) :
    (final slinput sc is).ipintrq = sc.ipintrq ++ ms.map Sent.bytes := by
  induction ms generalizing sc is with
  | nil =>
    rw [List.map_eq_nil_iff.1 his]
    simp [final]
  | cons m ms ih =>
    rw [List.flatMap_cons] at his
    obtain ⟨is₁, is₂, rfl, h₁, h₂⟩ := List.map_eq_append_iff.1 his
    obtain ⟨hread, hqueue⟩ := h.packet (hms m List.mem_cons_self) h₁ fun i hi => hgood i (List.mem_append_left _ hi)
    rw [final_append, ih hread (fun m' hm' => hms m' (List.mem_cons_of_mem _ hm')) h₂
      fun i hi => hgood i (List.mem_append_right _ hi), hqueue]
    simp

theorem Listening.step (h : Listening sc) (i : Input) : Listening (Slip.slinput sc i) := by
  have hstore : ∀ c, Listening (Slip.storeChar sc c) := by
    intro c
    unfold Slip.storeChar
    split <;> exact ⟨h.attached, h.debug⟩
  by_cases hi : i.bad = true
  · have heq : Slip.slinput sc i = { sc with error := true } := by simp [Slip.slinput, h.attached, hi]
    rw [heq]
    exact ⟨h.attached, h.debug⟩
  · rw [h.slinput (by simpa using hi)]
    split_ifs
    · exact ⟨h.attached, h.debug⟩
    · exact (h.frameEnd i).listening
    · exact hstore _
    · exact hstore _
    · exact hstore _

theorem slinit_sane (cl : Int) (mem : Mem) (autocomp debug bpf : Bool) : Sane (slinit cl mem autocomp debug bpf) where
  start _ := rfl
  low := Int.le_refl _
  high := by simp only [slinit]; omega

theorem run_listening (h : Listening sc) (is : List Input) : Listening (final slinput sc is) := by
  have hstep : ∀ sc i, Listening sc → True → Listening (slinput sc i) := fun _ i hl _ => hl.step i
  exact final_of_along hstep h (along_of_forall slinput (fun _ _ => trivial) sc is)

theorem run_sane (h : Sane sc) (is : List Input) : Sane (final slinput sc is) := by
  have hstep : ∀ sc i, Sane sc → True → Sane (slinput sc i) := fun _ i hs _ => slinput_sane hs i
  exact final_of_along hstep h (along_of_forall slinput (fun _ _ => trivial) sc is)

/-- An unmarked character, with mbufs and a cluster at hand. -/
def plain (c : Byte) : Input := ⟨c, false, 0, true, some 4096, false⟩

theorem ample_plain (cs : List Byte) : ∀ i ∈ cs.map plain, Ample i := by
  intro i hi
  obtain ⟨c, -, rfl⟩ := List.mem_map.1 hi
  exact ⟨rfl, rfl, rfl, rfl⟩

/-- Two packets with special bytes, the first in three mbufs. -/
def twoPackets : List Sent := [⟨[[0x45], [0xc0, 0xdb], []], true⟩, ⟨[[0x46, 0xdc, 0xdd]], false⟩]

/-- A header of 40 bytes for connection 0, and a compressed packet of `SLMAX` bytes. -/
def expanding : List Byte :=
  [0x75, 0, 0, 40] ++ List.replicate 28 0 ++ [0x50] ++ List.replicate 7 0 ++ [FRAME_END] ++
    [0xd0, 0, 0, 0] ++ List.replicate (SLMAX - 4) 1 ++ [FRAME_END]

end BsdKernel.Slip
