import BsdKernel.Net.BpfBuf
/-!
# What a reader of a bpf descriptor gets

The records that `catchpacket` leaves in the buffers, parsed as a program does that
reads the descriptor: `bh_hdrlen + bh_caplen` bytes each, and on to the next multiple
of `BPF_ALIGNMENT`. A buffer is filled from its start, so each read is parsed on its
own.

`records_runs`: with one reader and no reset, at every moment of every run, the
records that the reads have returned, those of the hold buffer and those of the store
buffer are the packets that were accepted and not counted in `bd_dcount`, in the order
in which they came.
-/

namespace BsdKernel.BpfBuf

open BsdKernel.Lib

variable {d : BpfD} {hs ss : List Record} {s : State}

/-! ## Records -/

/-- A record: `bh_hdrlen`, `bh_datalen`, and the `bh_caplen` bytes of data. -/
structure Record where
  hdrlen : Nat
  datalen : Nat
  data : List Byte
  deriving DecidableEq, Repr

/-- The record at the front of a buffer, and its length. -/
def nextRecord (c : List Byte) : Option (Record × Nat) :=
  if c.length < SIZEOF_BPF_HDR then none
  else
    let caplen := ofLe ((c.drop 8).take 4)
    let datalen := ofLe ((c.drop 12).take 4)
    let hdrlen := ofLe ((c.drop 16).take 2)
    some (⟨hdrlen, datalen, (c.drop hdrlen).take caplen⟩, hdrlen + caplen)

/-- The records of what one read has returned. -/
def records (c : List Byte) : List Record := parse 4 nextRecord c.length c

/-- What is to be recorded of a packet for which the filter returns `snaplen`. -/
def recorded (bufsize linkhdr : Nat) (pkt : Packet) (snaplen : Nat) : Record where
  hdrlen := bifHdrlen linkhdr
  datalen := pkt.src.bytes.length
  data := pkt.src.bytes.take (min (min snaplen pkt.src.bytes.length) (bufsize - bifHdrlen linkhdr))

section Packets

theorem pktlen_eq (src : Source) : src.pktlen = src.bytes.length := by
  cases src with
  | contiguous bs => rfl
  | chain ms =>
    have hsum : ∀ (ms : List (List Byte)) n, ms.foldl (fun n m => n + m.length) n = n + ms.flatten.length := by
      intro ms
      induction ms with
      | nil => simp
      | cons m ms ih =>
        intro n
        simp only [List.foldl_cons, ih, List.flatten_cons, List.length_append]
        omega
    simpa [Source.pktlen, Source.bytes] using hsum ms 0

/-- `bpf_mcopy` copies the front of the chain, and does not panic while there is enough of it. -/
theorem bpfMcopy_eq (ms : List (List Byte)) (len : Nat) (h : len ≤ ms.flatten.length) :
    bpfMcopy ms len = some (ms.flatten.take len) := by
  induction ms generalizing len with
  | nil =>
    obtain rfl : len = 0 := by simpa using h
    simp [bpfMcopy]
  | cons m ms ih =>
    cases len with
    | zero => simp [bpfMcopy]
    | succ len =>
      rw [List.flatten_cons, List.length_append] at h
      have hrest : len + 1 - min m.length (len + 1) = len + 1 - m.length := by omega
      rw [bpfMcopy, hrest, ih _ (by omega), Option.map_some, List.flatten_cons, List.take_append]

theorem copy_eq (src : Source) {len : Nat} (h : len ≤ src.pktlen) : src.copy len = some (src.bytes.take len) := by
  cases src with
  | contiguous bs => rfl
  | chain ms =>
    rw [pktlen_eq] at h
    exact bpfMcopy_eq ms len h

theorem bifHdrlen_bounds (linkhdr : Nat) : 18 ≤ bifHdrlen linkhdr ∧ bifHdrlen linkhdr ≤ 21 := by
  unfold bifHdrlen bpfWordalign roundUp SIZEOF_BPF_HDR
  omega

end Packets

theorem slice_eq {α : Type*} {l a b c : List α} {off len : Nat} (h : l = a ++ b ++ c) (ha : a.length = off)
    (hb : b.length = len) : (l.drop off).take len = b := by
  subst h ha hb
  rw [List.append_assoc, List.drop_left, List.take_left]

/-- The bytes of a record read back, whatever is between the header and the data. -/
theorem reads_record {tstamp caplen datalen hdrlen : Nat} {gap data : List Byte} (hc : caplen < 2 ^ 32)
    (hd : datalen < 2 ^ 32) (hh : hdrlen < 2 ^ 16) (hgap : 18 + gap.length = hdrlen) (hdata : data.length = caplen) :
    Reads nextRecord (hdrBytes tstamp caplen datalen hdrlen ++ gap ++ data) ⟨hdrlen, datalen, data⟩ := by
  have hlen : (hdrBytes tstamp caplen datalen hdrlen).length = 18 := by simp [hdrBytes]
  constructor
  · intro hnil
    rw [List.append_assoc, List.append_eq_nil_iff] at hnil
    rw [hnil.1] at hlen
    cases hlen
  · intro rest
    set c := hdrBytes tstamp caplen datalen hdrlen ++ gap ++ data ++ rest with hcdef
    have hcap : (c.drop 8).take 4 = toLe 4 caplen :=
      slice_eq (a := toLe 8 tstamp) (c := toLe 4 datalen ++ toLe 2 hdrlen ++ gap ++ data ++ rest)
        (by simp [hcdef, hdrBytes]) (by simp) (by simp)
    have hdat : (c.drop 12).take 4 = toLe 4 datalen :=
      slice_eq (a := toLe 8 tstamp ++ toLe 4 caplen) (c := toLe 2 hdrlen ++ gap ++ data ++ rest)
        (by simp [hcdef, hdrBytes]) (by simp) (by simp)
    have hhdr : (c.drop 16).take 2 = toLe 2 hdrlen :=
      slice_eq (a := toLe 8 tstamp ++ toLe 4 caplen ++ toLe 4 datalen) (c := gap ++ data ++ rest)
        (by simp [hcdef, hdrBytes]) (by simp) (by simp)
    have hbody : (c.drop hdrlen).take caplen = data := slice_eq hcdef (by rw [List.length_append, hlen, hgap]) hdata
    have hlong : ¬c.length < SIZEOF_BPF_HDR := by
      simp only [hcdef, List.length_append, hlen, SIZEOF_BPF_HDR]
      omega
    unfold nextRecord
    rw [if_neg hlong, hcap, hdat, hhdr, ofLe_toLe (by omega), ofLe_toLe (by omega), ofLe_toLe (by omega)]
    dsimp only
    rw [hbody, List.length_append, List.length_append, hlen, hgap, hdata]

/-! ## The buffers hold records -/

theorem writeAt_eq {a b c bs : List Byte} {off : Nat} (ha : a.length = off) (hb : b.length = bs.length) :
    writeAt (a ++ b ++ c) off bs = a ++ bs ++ c := by
  subst ha
  have hdrop : (a ++ b ++ c).drop (a.length + bs.length) = c := by
    rw [← hb, ← List.length_append, List.drop_left]
  rw [writeAt, hdrop, List.append_assoc a b c, List.take_left]

theorem exists_cut {α : Type*} (l : List α) {n : Nat} (h : n ≤ l.length) : ∃ a b, l = a ++ b ∧ a.length = n :=
  ⟨l.take n, l.drop n, (List.take_append_drop n l).symm, by simp [h]⟩

/-- The store buffer with a record behind the others. -/
theorem take_written (buf data : List Byte) {hdr : List Byte} {slen curlen hdrlen : Nat} (hh : hdr.length = 18) (hs : slen ≤ curlen)
    (hl : 18 ≤ hdrlen) (hfit : curlen + hdrlen + data.length ≤ buf.length) :
    ∃ gap gap', slen + gap.length = curlen ∧ 18 + gap'.length = hdrlen ∧
      (writeAt (writeAt buf curlen hdr) (curlen + hdrlen) data).take (curlen + hdrlen + data.length) =
        buf.take slen ++ gap ++ (hdr ++ gap' ++ data) ∧
      (writeAt (writeAt buf curlen hdr) (curlen + hdrlen) data).length = buf.length := by
  obtain ⟨old, l₁, rfl, hold⟩ := exists_cut buf (n := slen) (by omega)
  rw [List.length_append] at hfit
  obtain ⟨gap, l₂, rfl, hgap⟩ := exists_cut l₁ (n := curlen - slen) (by omega)
  rw [List.length_append] at hfit
  obtain ⟨oldHdr, l₃, rfl, holdHdr⟩ := exists_cut l₂ (n := 18) (by omega)
  rw [List.length_append] at hfit
  obtain ⟨gap', l₄, rfl, hgap'⟩ := exists_cut l₃ (n := hdrlen - 18) (by omega)
  rw [List.length_append] at hfit
  obtain ⟨oldData, rest, rfl, holdData⟩ := exists_cut l₄ (n := data.length) (by omega)
  have hpre : (old ++ gap).length = curlen := by
    rw [List.length_append]
    omega
  have hpre' : (old ++ gap ++ hdr ++ gap').length = curlen + hdrlen := by
    rw [List.length_append, List.length_append, hpre]
    omega
  have hfirst : writeAt (old ++ (gap ++ (oldHdr ++ (gap' ++ (oldData ++ rest))))) curlen hdr =
      (old ++ gap) ++ hdr ++ (gap' ++ (oldData ++ rest)) := by
    rw [← writeAt_eq hpre (holdHdr.trans hh.symm)]
    simp
  have hsecond : writeAt ((old ++ gap) ++ hdr ++ (gap' ++ (oldData ++ rest))) (curlen + hdrlen) data =
      (old ++ gap ++ hdr ++ gap') ++ data ++ rest := by
    rw [← writeAt_eq hpre' holdData]
    simp
  refine ⟨gap, gap', by omega, by omega, ?_, ?_⟩
  · rw [hfirst, hsecond, List.take_append_of_le_length (by simp only [List.length_append]; omega),
      List.take_of_length_le (by simp only [List.length_append]; omega),
      List.take_append_of_le_length (by omega), List.take_of_length_le (by omega)]
    simp
  · rw [hfirst, hsecond]
    simp only [List.length_append]
    omega

/-- What is in the hold buffer. -/
def held (d : BpfD) : List Byte := (d.hbuf.map fun b => (d.mem b).take d.hlen).getD []

/-- What is in the store buffer. -/
def filled (d : BpfD) : List Byte := (d.sbuf.map fun b => (d.mem b).take d.slen).getD []

/-- The hold buffer holds the records `hs`, and the store buffer `ss`. -/
structure Holds (d : BpfD) (hs ss : List Record) : Prop where
  size : 32 ≤ d.bufsize ∧ d.bufsize ≤ 0x8000
  len : ∀ b, (d.mem b).length = d.bufsize
  held : Tiled 4 nextRecord (held d) hs
  filled : Tiled 4 nextRecord (filled d) ss

theorem recordLen_eq (d : BpfD) (src : Source) (snaplen : Nat) (hsize : 32 ≤ d.bufsize) :
    recordLen d src.pktlen snaplen =
      bifHdrlen d.linkhdr + min (min snaplen src.bytes.length) (d.bufsize - bifHdrlen d.linkhdr) := by
  have hhdr := bifHdrlen_bounds d.linkhdr
  rw [recordLen, pktlen_eq]
  split <;> omega

/-- A record that fits behind the others is stored there. -/
theorem Holds.storeRecord (h : Holds d hs ss) (hslots : Slots d) (pkt : Packet) (snaplen tstamp : Nat)
    (hslen : d.slen ≤ d.bufsize) (hfit : bpfWordalign d.slen + recordLen d pkt.src.pktlen snaplen ≤ d.bufsize) :
    Holds (storeRecord d pkt tstamp (bpfWordalign d.slen) (recordLen d pkt.src.pktlen snaplen)) hs
      (ss ++ [recorded d.bufsize d.linkhdr pkt snaplen]) := by
  obtain ⟨a, b, hab, hsbuf, hslot⟩ := hslots
  have hhdr := bifHdrlen_bounds d.linkhdr
  have hshort := pkt.short
  have hround : d.slen ≤ bpfWordalign d.slen := le_roundUp (by decide) _
  set caplen := min (min snaplen pkt.src.bytes.length) (d.bufsize - bifHdrlen d.linkhdr) with hcaplen
  have htot : recordLen d pkt.src.pktlen snaplen = bifHdrlen d.linkhdr + caplen := recordLen_eq d _ _ h.size.1
  have hcopy : pkt.src.copy caplen = some (pkt.src.bytes.take caplen) := copy_eq _ (by rw [pktlen_eq]; omega)
  have hdata : (pkt.src.bytes.take caplen).length = caplen := by
    rw [List.length_take]
    omega
  have hsize := h.size
  rw [pktlen_eq] at hshort
  rw [htot] at hfit ⊢
  have hhlen : (hdrBytes tstamp caplen pkt.src.pktlen (bifHdrlen d.linkhdr)).length = 18 := by simp [hdrBytes]
  obtain ⟨gap, gap', hgap, hgap', htake, hlen⟩ :=
    take_written (d.mem a) (pkt.src.bytes.take caplen) hhlen hround hhdr.1 (by rw [hdata, h.len]; omega)
  have hreads : Reads nextRecord (hdrBytes tstamp caplen pkt.src.pktlen (bifHdrlen d.linkhdr) ++ gap' ++
      pkt.src.bytes.take caplen) (recorded d.bufsize d.linkhdr pkt snaplen) := by
    rw [pktlen_eq]
    exact reads_record (by omega) (by omega) (by omega) hgap' hdata
  have hcut : bifHdrlen d.linkhdr + caplen - bifHdrlen d.linkhdr = caplen := by omega
  have hold : (d.mem a).take d.slen = BpfBuf.filled d := by simp [BpfBuf.filled, hsbuf]
  have hfl : (BpfBuf.filled d).length = d.slen := by
    rw [← hold, List.length_take, h.len]
    omega
  constructor
  · exact h.size
  · intro k
    by_cases hk : k = a
    · subst hk
      simp only [BpfBuf.storeRecord, hsbuf, hcut, hcopy, Option.getD_some, Function.update_self, hlen, h.len]
    · simp only [BpfBuf.storeRecord, hsbuf, Function.update_of_ne hk, h.len]
  · have hsame : BpfBuf.held (BpfBuf.storeRecord d pkt tstamp (bpfWordalign d.slen) (bifHdrlen d.linkhdr + caplen)) =
        BpfBuf.held d := by
      rcases hslot with hslot | hslot
      · have hba : b ≠ a := by omega
        simp only [BpfBuf.held, BpfBuf.storeRecord, hsbuf, hslot.1, Option.map_some, Function.update_of_ne hba]
      · simp only [BpfBuf.held, BpfBuf.storeRecord, hslot.1, Option.map_none]
    rw [hsame]
    exact h.held
  · have hnew : BpfBuf.filled (BpfBuf.storeRecord d pkt tstamp (bpfWordalign d.slen) (bifHdrlen d.linkhdr + caplen)) =
        BpfBuf.filled d ++ gap ++ (hdrBytes tstamp caplen pkt.src.pktlen (bifHdrlen d.linkhdr) ++ gap' ++
          pkt.src.bytes.take caplen) := by
      rw [← hold, ← htake, hdata]
      simp only [BpfBuf.filled, BpfBuf.storeRecord, hsbuf, hcut, hcopy, Option.getD_some, Option.map_some,
        Function.update_self, Nat.add_assoc]
    rw [hnew]
    exact h.filled.snoc (by decide) (by rw [hfl, hgap, bpfWordalign]) hreads

theorem Holds.rotate (h : Holds d hs ss) (hn : d.hbuf = none) : hs = [] ∧ Holds (rotateBuffers d) ss [] := by
  have hheld : BpfBuf.held d = [] := by simp [BpfBuf.held, hn]
  refine ⟨h.held.eq_nil_iff.1 hheld, h.size, h.len, h.filled, ?_⟩
  have hfilled : BpfBuf.filled (rotateBuffers d) = [] := by
    cases hf : d.fbuf <;> simp [BpfBuf.filled, rotateBuffers, hf]
  rw [hfilled]
  exact .nil

theorem Holds.readDone (h : Holds d hs ss) : Holds (readDone d) [] ss :=
  ⟨h.size, h.len, .nil, h.filled⟩

theorem Holds.records (h : Holds d hs ss) :
    BpfBuf.records (BpfBuf.held d) = hs ∧ BpfBuf.records (BpfBuf.filled d) = ss :=
  ⟨h.held.parse (by decide) rfl (Nat.le_refl _), h.filled.parse (by decide) rfl (Nat.le_refl _)⟩

/-! ## Runs -/

/-- A step that does not reset the descriptor. -/
def Unset : Op → Prop
  | .reset | .setif _ => False
  | _ => True

/-- The packet that a step stores: it is accepted and not counted in `bd_dcount`. -/
def keptBy (s : State) : Op → List (Packet × Nat)
  | .arrive pkt snaplen tstamp =>
    if snaplen ≠ 0 ∧ (step s (.arrive pkt snaplen tstamp)).d.dcount = s.d.dcount then [(pkt, snaplen)] else []
  | _ => []

/-- The packets that a run accepts and does not count in `bd_dcount`, with what the filter returned. -/
def kept (s : State) : List Op → List (Packet × Nat)
  | [] => []
  | op :: ops => keptBy s op ++ kept (step s op) ops

/-- The records on their way: `hs` and `ss` are those of the hold and of the store buffer. -/
structure View (s : State) (hs ss : List Record) : Prop where
  inv : Inv s
  one : s.pcs.length = 1
  holds : Holds s.d hs ss

theorem fits_of_one (hone : s.pcs.length = 1) {op : Op} (hop : Unset op) : Fits s op := by
  have hnone : ∀ (p : Nat) pc, s.pcs[p]? = some pc → pc.isCopying = false → NoneCopies s := by
    intro p pc hp hpc pc' hpc'
    obtain ⟨pc₀, hpcs⟩ := List.length_eq_one_iff.1 hone
    rw [hpcs] at hp hpc'
    have hpc₀ := List.mem_singleton.1 (List.mem_of_getElem? hp)
    rw [List.mem_singleton.1 hpc', ← hpc₀, hpc]
  cases op with
  | arrive | copied | immediate => trivial
  | read p resid => exact fun hp _ => hnone p _ hp rfl
  | wake p error => exact fun hp _ => hnone p _ hp rfl
  | reset | setif => exact hop.elim

theorem readLoop_fst (d : BpfD) : (readLoop d).1 = d ∨ d.hbuf = none ∧ (readLoop d).1 = rotateBuffers d := by
  unfold readLoop
  split
  · split
    · exact .inr ⟨‹_›, rfl⟩
    · exact .inl rfl
  · exact .inl rfl

theorem readWake_fst (d : BpfD) (error : Wake) :
    (readWake d error).1 = d ∨ d.hbuf = none ∧ (readWake d error).1 = rotateBuffers d := by
  cases error with
  | woken => exact readLoop_fst d
  | interrupted => exact .inl rfl
  | timeout =>
    unfold readWake
    dsimp only
    split
    · exact .inl rfl
    · rename_i hh
      split
      · exact .inl rfl
      · exact .inr ⟨by simpa using hh, rfl⟩

/-- What a step without a reset does to the descriptor and to what is returned. -/
theorem step_cases (h : Inv s) {op : Op} (hop : Unset op) :
    -- a packet, or nothing that touches the buffers
    ((step s op).returned = s.returned ∧
      ((∃ pkt snaplen tstamp, op = .arrive pkt snaplen tstamp ∧ snaplen ≠ 0 ∧
          (step s op).d = catchpacket s.d pkt snaplen tstamp) ∨
        keptBy s op = [] ∧ ((step s op).d = { s.d with immediate := (step s op).d.immediate } ∨
          s.d.hbuf = none ∧ (step s op).d = rotateBuffers s.d))) ∨
    -- the end of a read
    (keptBy s op = [] ∧ (step s op).d = readDone s.d ∧ (step s op).returned = s.returned ++ [held s.d]) := by
  cases op with
  | arrive pkt snaplen tstamp =>
    refine .inl ?_
    by_cases hs : snaplen = 0
    · exact ⟨by simp [step, arrive, hs], .inr ⟨by simp [keptBy, hs], .inl (by simp [step, arrive, hs])⟩⟩
    · exact ⟨by simp [step, arrive, hs], .inl ⟨pkt, snaplen, tstamp, rfl, hs, by simp [step, arrive, hs]⟩⟩
  | read p resid =>
    refine .inl ?_
    unfold step
    dsimp only
    split
    · refine ⟨rfl, .inr ⟨rfl, ?_⟩⟩
      rcases readLoop_fst s.d with heq | heq
      · exact .inl (by rw [heq])
      · exact .inr heq
    · exact ⟨rfl, .inr ⟨rfl, .inl rfl⟩⟩
  | wake p error =>
    refine .inl ?_
    unfold step
    dsimp only
    split
    · refine ⟨rfl, .inr ⟨rfl, ?_⟩⟩
      rcases readWake_fst s.d error with heq | heq
      · exact .inl (by rw [heq])
      · exact .inr heq
    · exact ⟨rfl, .inr ⟨rfl, .inl rfl⟩⟩
  | copied p =>
    unfold step
    dsimp only
    split
    · rename_i buf len hp
      obtain ⟨hbuf, -, hlen⟩ := h.reader p buf len hp
      exact .inr ⟨rfl, rfl, by rw [hbuf, hlen, held]⟩
    · exact .inl ⟨rfl, .inr ⟨rfl, .inl rfl⟩⟩
  | immediate on => exact .inl ⟨rfl, .inr ⟨rfl, .inl rfl⟩⟩
  | reset | setif => exact hop.elim

theorem step_pcs (s : State) (op : Op) : (step s op).pcs.length = s.pcs.length := by
  unfold step arrive
  cases op <;> dsimp only <;> split <;> simp

/-- What a packet does to the records: a dropped one is counted, any other becomes the last record. -/
theorem Holds.catchpacket (h : Holds d hs ss) (hslots : Slots d) (hslen : d.slen ≤ d.bufsize) (pkt : Packet)
    (snaplen tstamp : Nat) :
    ∃ hs' ss', Holds (catchpacket d pkt snaplen tstamp) hs' ss' ∧
      (catchpacket d pkt snaplen tstamp).bufsize = d.bufsize ∧
      (catchpacket d pkt snaplen tstamp).linkhdr = d.linkhdr ∧
      hs' ++ ss' = hs ++ ss ++ if (catchpacket d pkt snaplen tstamp).dcount = d.dcount
        then [recorded d.bufsize d.linkhdr pkt snaplen] else [] := by
  rcases catchpacket_cases d pkt snaplen tstamp with ⟨-, heq⟩ | ⟨hf, heq⟩ | ⟨hfit, heq⟩
  · rw [heq]
    exact ⟨hs, ss, ⟨h.size, h.len, h.held, h.filled⟩, rfl, rfl, by simp⟩
  · have hn : d.hbuf = none := by
      obtain ⟨a, b, -, -, hslot⟩ := hslots
      rcases hslot with hslot | hslot
      · exact absurd hslot.2 hf
      · exact hslot.1
    obtain ⟨rfl, hrot⟩ := h.rotate hn
    have hzero : bpfWordalign (rotateBuffers d).slen = 0 := roundUp_zero (by decide)
    have hnew := hrot.storeRecord (hslots.rotate hn).1 pkt snaplen tstamp (Nat.zero_le _)
      (by rw [hzero, Nat.zero_add]; exact recordLen_le d _ _)
    rw [hzero] at hnew
    rw [heq]
    exact ⟨ss, _, hnew, rfl, rfl, by simp [rotateBuffers]⟩
  · rw [heq]
    exact ⟨hs, _, h.storeRecord hslots pkt snaplen tstamp hslen hfit, rfl, rfl, by simp⟩

theorem View.step (h : View s hs ss) {op : Op} (hop : Unset op) :
    ∃ hs' ss', View (step s op) hs' ss' ∧ (step s op).d.bufsize = s.d.bufsize ∧
      (step s op).d.linkhdr = s.d.linkhdr ∧
      (step s op).returned.flatMap records ++ (hs' ++ ss') = s.returned.flatMap records ++ (hs ++ ss) ++
        (keptBy s op).map fun k => recorded s.d.bufsize s.d.linkhdr k.1 k.2 := by
  have hinv := h.inv.step op (fits_of_one h.one hop)
  have hone : (BpfBuf.step s op).pcs.length = 1 := (step_pcs s op).trans h.one
  rcases step_cases h.inv hop with ⟨hret, hstep⟩ | ⟨hkept, hd, hret⟩
  · rw [hret]
    rcases hstep with ⟨pkt, snaplen, tstamp, rfl, hsnap, hd⟩ | ⟨hkept, hd | ⟨hn, hd⟩⟩
    · obtain ⟨hs', ss', hholds, hsize, hlink, hview⟩ :=
        h.holds.catchpacket h.inv.slots h.inv.slen_le pkt snaplen tstamp
      refine ⟨hs', ss', ⟨hinv, hone, by rw [hd]; exact hholds⟩, by rw [hd, hsize], by rw [hd, hlink], ?_⟩
      rw [hview, keptBy, hd]
      by_cases hdrop : (BpfBuf.catchpacket s.d pkt snaplen tstamp).dcount = s.d.dcount <;> simp [hdrop, hsnap]
    · refine ⟨hs, ss, ⟨hinv, hone, ?_⟩, by rw [hd], by rw [hd], by simp [hkept]⟩
      rw [hd]
      exact ⟨h.holds.size, h.holds.len, h.holds.held, h.holds.filled⟩
    · obtain ⟨rfl, hrot⟩ := h.holds.rotate hn
      exact ⟨ss, [], ⟨hinv, hone, by rw [hd]; exact hrot⟩, by rw [hd]; rfl, by rw [hd]; rfl, by simp [hkept]⟩
  · refine ⟨[], ss, ⟨hinv, hone, by rw [hd]; exact h.holds.readDone⟩, by rw [hd]; rfl, by rw [hd]; rfl, ?_⟩
    rw [hret, hkept, List.flatMap_append, List.flatMap_singleton, h.holds.records.1]
    simp

theorem View.run (h : View s hs ss) {ops : List Op} (hops : ∀ op ∈ ops, Unset op) :
    ∃ hs' ss', View (final BpfBuf.step s ops) hs' ss' ∧
      (final BpfBuf.step s ops).returned.flatMap records ++ (hs' ++ ss') = s.returned.flatMap records ++ (hs ++ ss) ++
        (kept s ops).map fun k => recorded s.d.bufsize s.d.linkhdr k.1 k.2 := by
  induction ops generalizing s hs ss with
  | nil => exact ⟨hs, ss, h, by simp [kept, final]⟩
  | cons op ops ih =>
    obtain ⟨hs₁, ss₁, h₁, hsize, hlink, hview₁⟩ := h.step (hops op List.mem_cons_self)
    obtain ⟨hs₂, ss₂, h₂, hview₂⟩ := ih h₁ fun op' hop' => hops op' (List.mem_cons_of_mem _ hop')
    refine ⟨hs₂, ss₂, h₂, ?_⟩
    rw [hsize, hlink, hview₁] at hview₂
    simpa only [kept, List.map_append, List.append_assoc, final, List.foldl_cons] using hview₂

theorem biocsblen_bounds (size : Nat) : 32 ≤ biocsblen size ∧ biocsblen size ≤ 0x8000 := by
  unfold biocsblen BPF_MAXBUFSIZE BPF_MINBUFSIZE
  split
  · omega
  · split <;> omega

theorem view_start (size linkhdr : Nat) (junk : Nat → Nat → Byte) : View (start 1 size linkhdr junk) [] [] where
  inv := inv_start 1 size linkhdr junk
  one := rfl
  holds := ⟨biocsblen_bounds size, fun b => by simp [start], .nil, .nil⟩

/-- With one reader and no reset, what the reads have returned and what is still in the buffers are the records of
the packets that were accepted and not counted as dropped, each once and in their order. -/
theorem records_runs (size linkhdr : Nat) (junk : Nat → Nat → Byte) (ops : List Op) (hops : ∀ op ∈ ops, Unset op) :
    let s := final step (start 1 size linkhdr junk) ops
    s.returned.flatMap records ++ records (held s.d) ++ records (filled s.d) =
      (kept (start 1 size linkhdr junk) ops).map fun k => recorded (biocsblen size) linkhdr k.1 k.2 := by
  obtain ⟨hs, ss, h, hview⟩ := (view_start size linkhdr junk).run hops
  intro s
  rw [h.holds.records.1, h.holds.records.2, List.append_assoc, hview]
  simp [start]

/-- Two packets, the second of three mbufs, read in immediate mode. -/
def twoPackets : List Op :=
  [.immediate true, .arrive ⟨.contiguous [1, 2], by decide⟩ 1 0, .read 0 64,
   .arrive ⟨.chain [[3], [], [4, 5]], by decide⟩ 9 0, .copied 0, .read 0 64, .copied 0]

theorem records_runs_two : (∀ op ∈ twoPackets, Unset op) ∧
    (let s := final step (start 1 64 14 fun _ _ => 0) twoPackets
     s.returned.flatMap records ++ records (held s.d) ++ records (filled s.d) =
      (kept (start 1 64 14 fun _ _ => 0) twoPackets).map fun k => recorded (biocsblen 64) 14 k.1 k.2) ∧
    (final step (start 1 64 14 fun _ _ => 0) twoPackets).returned.flatMap records =
      [⟨18, 2, [1]⟩, ⟨18, 3, [3, 4, 5]⟩] := by
  have hops : ∀ op ∈ twoPackets, Unset op := by simp [twoPackets, Unset]
  exact ⟨hops, records_runs 64 14 (fun _ _ => 0) twoPackets hops, by decide +kernel⟩

end BsdKernel.BpfBuf
