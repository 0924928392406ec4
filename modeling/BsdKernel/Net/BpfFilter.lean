import Mathlib.Data.List.Basic
import Mathlib.Data.Fintype.Pi
/-!
# The packet filter machine

`bpf_filter` and `bpf_validate` of `kern/net/bpf_filter.c`, compiled with
`KERNEL` for the i386: `int`, `long` and pointers have 32 bits, `char` is
signed, and a variable shift uses the low five bits of its count.

`p` is read in two ways, as a buffer and, while `buflen` is 0, as a pointer to
an mbuf: a `Packet` has the bytes around `p` for the first reading and the mbufs
of the chain for the second. A read past the data of a buffer or an mbuf gives
whatever byte the memory holds there. `A`, `X` and `mem` start with whatever the
stack holds.

Three things must not happen: the program counter leaves the program, `mem` is
indexed outside its `BPF_MEMWORDS` words, a constant division by 0. A run that
gets there stops with the `Fault`.
-/

namespace BsdKernel.Bpf

abbrev Byte := BitVec 8
abbrev Word := BitVec 32

/-! ## Instruction codes (`bpf.h`) -/

def BPF_LD : BitVec 16 := 0x00
def BPF_LDX : BitVec 16 := 0x01
def BPF_ST : BitVec 16 := 0x02
def BPF_STX : BitVec 16 := 0x03
def BPF_ALU : BitVec 16 := 0x04
def BPF_JMP : BitVec 16 := 0x05
def BPF_RET : BitVec 16 := 0x06
def BPF_MISC : BitVec 16 := 0x07
def BPF_W : BitVec 16 := 0x00
def BPF_H : BitVec 16 := 0x08
def BPF_B : BitVec 16 := 0x10
def BPF_IMM : BitVec 16 := 0x00
def BPF_ABS : BitVec 16 := 0x20
def BPF_IND : BitVec 16 := 0x40
def BPF_MEM : BitVec 16 := 0x60
def BPF_LEN : BitVec 16 := 0x80
def BPF_MSH : BitVec 16 := 0xa0
def BPF_ADD : BitVec 16 := 0x00
def BPF_SUB : BitVec 16 := 0x10
def BPF_MUL : BitVec 16 := 0x20
def BPF_DIV : BitVec 16 := 0x30
def BPF_OR : BitVec 16 := 0x40
def BPF_AND : BitVec 16 := 0x50
def BPF_LSH : BitVec 16 := 0x60
def BPF_RSH : BitVec 16 := 0x70
def BPF_NEG : BitVec 16 := 0x80
def BPF_JA : BitVec 16 := 0x00
def BPF_JEQ : BitVec 16 := 0x10
def BPF_JGT : BitVec 16 := 0x20
def BPF_JGE : BitVec 16 := 0x30
def BPF_JSET : BitVec 16 := 0x40
def BPF_K : BitVec 16 := 0x00
def BPF_X : BitVec 16 := 0x08
def BPF_A : BitVec 16 := 0x10
def BPF_TAX : BitVec 16 := 0x00
def BPF_TXA : BitVec 16 := 0x80

def BPF_CLASS (code : BitVec 16) : BitVec 16 := code &&& 0x07
def BPF_MODE (code : BitVec 16) : BitVec 16 := code &&& 0xe0
def BPF_OP (code : BitVec 16) : BitVec 16 := code &&& 0xf0

/-- Number of scratch memory words. -/
def BPF_MEMWORDS : Nat := 16

/-- `struct bpf_insn` -/
structure Insn where
  code : BitVec 16
  jt : Byte
  jf : Byte
  k : Word
deriving DecidableEq, Repr

/-- `BPF_STMT` -/
def stmt (code : BitVec 16) (k : Word) : Insn := ⟨code, 0, 0, k⟩

/-- The comparisons of the conditional jumps. -/
inductive Cond where
  | jgt | jge | jeq | jset
deriving DecidableEq, Repr

/-- The binary operations. -/
inductive AluOp where
  | add | sub | mul | div | and | or | lsh | rsh
deriving DecidableEq, Repr

/-- The second operand, the constant or the index register. -/
inductive Src where
  | k | x
deriving DecidableEq, Repr

/-- The cases of the switch in `bpf_filter`. -/
inductive Op where
  | retK | retA
  | ldWAbs | ldHAbs | ldBAbs | ldLen | ldxLen | ldWInd | ldHInd | ldBInd | ldxMsh
  | ldImm | ldxImm | ldMem | ldxMem | st | stx
  | ja | jmp (c : Cond) (s : Src)
  | alu (o : AluOp) (s : Src) | neg
  | tax | txa
deriving DecidableEq, Repr

def Src.bits : Src → BitVec 16
  | .k => BPF_K
  | .x => BPF_X

def Cond.bits : Cond → BitVec 16
  | .jgt => BPF_JGT
  | .jge => BPF_JGE
  | .jeq => BPF_JEQ
  | .jset => BPF_JSET

def AluOp.bits : AluOp → BitVec 16
  | .add => BPF_ADD
  | .sub => BPF_SUB
  | .mul => BPF_MUL
  | .div => BPF_DIV
  | .and => BPF_AND
  | .or => BPF_OR
  | .lsh => BPF_LSH
  | .rsh => BPF_RSH

/-- The case labels. -/
def Op.label : Op → BitVec 16
  | .retK => BPF_RET ||| BPF_K
  | .retA => BPF_RET ||| BPF_A
  | .ldWAbs => BPF_LD ||| BPF_W ||| BPF_ABS
  | .ldHAbs => BPF_LD ||| BPF_H ||| BPF_ABS
  | .ldBAbs => BPF_LD ||| BPF_B ||| BPF_ABS
  | .ldLen => BPF_LD ||| BPF_W ||| BPF_LEN
  | .ldxLen => BPF_LDX ||| BPF_W ||| BPF_LEN
  | .ldWInd => BPF_LD ||| BPF_W ||| BPF_IND
  | .ldHInd => BPF_LD ||| BPF_H ||| BPF_IND
  | .ldBInd => BPF_LD ||| BPF_B ||| BPF_IND
  | .ldxMsh => BPF_LDX ||| BPF_MSH ||| BPF_B
  | .ldImm => BPF_LD ||| BPF_IMM
  | .ldxImm => BPF_LDX ||| BPF_IMM
  | .ldMem => BPF_LD ||| BPF_MEM
  | .ldxMem => BPF_LDX ||| BPF_MEM
  | .st => BPF_ST
  | .stx => BPF_STX
  | .ja => BPF_JMP ||| BPF_JA
  | .jmp c s => BPF_JMP ||| c.bits ||| s.bits
  | .alu o s => BPF_ALU ||| o.bits ||| s.bits
  | .neg => BPF_ALU ||| BPF_NEG
  | .tax => BPF_MISC ||| BPF_TAX
  | .txa => BPF_MISC ||| BPF_TXA

/-- All cases of the switch. -/
def allOps : List Op :=
  [.retK, .retA, .ldWAbs, .ldHAbs, .ldBAbs, .ldLen, .ldxLen, .ldWInd, .ldHInd, .ldBInd, .ldxMsh, .ldImm, .ldxImm,
    .ldMem, .ldxMem, .st, .stx, .ja] ++
  [Cond.jgt, .jge, .jeq, .jset].flatMap (fun c => [.jmp c .k, .jmp c .x]) ++
  [AluOp.add, .sub, .mul, .div, .and, .or, .lsh, .rsh].flatMap (fun o => [.alu o .k, .alu o .x]) ++
  [.neg, .tax, .txa]

/-- `switch (pc->code)`; `none` is the `default` case. -/
def switch (code : BitVec 16) : Option Op := allOps.find? (fun o => o.label == code)

/-! ## Packets -/

/-- The part of an mbuf the filter reads: `m_len`, and the memory around
`m_data`. -/
structure Mbuf where
  mLen : Nat
  mtod : Int → Byte

structure Packet where
  /-- `p[i]`. -/
  p : Int → Byte
  /-- The mbuf at `p`, and the chain from its `m_next`. -/
  m : Mbuf
  mNext : List Mbuf
  buflen : Word

/-- Big-endian words of memory. -/
def extractLong (mem : Int → Byte) (k : Int) : Word := mem k ++ mem (k + 1) ++ mem (k + 2) ++ mem (k + 3)

def extractShort (mem : Int → Byte) (k : Int) : Word := (mem k ++ mem (k + 1) : BitVec 16).setWidth 32

/-- The loop of `m_xword`, `m_xhalf` and `MINDEX`: the mbuf that holds byte `k`,
the chain behind it, and the offset in it. -/
def mIndex (m : Mbuf) (next : List Mbuf) (k : Int) : Option (Mbuf × List Mbuf × Int) :=
  if k ≥ m.mLen then
    match next with
    | [] => none
    | m' :: next' => mIndex m' next' (k - m.mLen)
  else some (m, next, k)

/-- `m_xword`; `none` when it sets `*err`. -/
def mXword (m : Mbuf) (next : List Mbuf) (k : Int) : Option Word :=
  match mIndex m next k with
  | none => none
  | some (m, next, k) =>
    let cp := fun i => m.mtod (k + i)
    if (m.mLen : Int) - k ≥ 4 then some (extractLong cp 0)
    else
      match next with
      | [] => none
      | m0 :: _ =>
        if (m0.mLen : Int) + m.mLen - k < 4 then none
        else
          let np := m0.mtod
          if (m.mLen : Int) - k = 1 then some (cp k ++ np 0 ++ np 1 ++ np 2)
          else if (m.mLen : Int) - k = 2 then some (cp k ++ cp (k + 1) ++ np 0 ++ np 1)
          else some (cp k ++ cp (k + 1) ++ cp (k + 2) ++ np 0)

/-- `m_xhalf`; `none` when it sets `*err`. -/
def mXhalf (m : Mbuf) (next : List Mbuf) (k : Int) : Option Word :=
  match mIndex m next k with
  | none => none
  | some (m, next, k) =>
    let cp := fun i => m.mtod (k + i)
    if (m.mLen : Int) - k ≥ 2 then some (extractShort cp 0)
    else
      match next with
      | [] => none
      | m0 :: _ => some ((cp k ++ m0.mtod 0 : BitVec 16).setWidth 32)

/-- `k` as the unsigned operand of a comparison. -/
def toUnsigned (k : Int) : Word := BitVec.ofInt 32 k

/-- The word loads; `none` is `return 0`. -/
def ldWord (pkt : Packet) (k : Int) : Option Word :=
  if toUnsigned k + 4 > pkt.buflen then
    if pkt.buflen ≠ 0 then none else mXword pkt.m pkt.mNext k
  else some (extractLong pkt.p k)

/-- `BPF_LD|BPF_H|BPF_ABS` does not look at `merr`: an error loads the 0 that
`m_xhalf` returns. -/
def ldHalfAbs (pkt : Packet) (k : Int) : Option Word :=
  if toUnsigned k + 2 > pkt.buflen then
    if pkt.buflen ≠ 0 then none else some ((mXhalf pkt.m pkt.mNext k).getD 0)
  else some (extractShort pkt.p k)

def ldHalfInd (pkt : Packet) (k : Int) : Option Word :=
  if toUnsigned k + 2 > pkt.buflen then
    if pkt.buflen ≠ 0 then none else mXhalf pkt.m pkt.mNext k
  else some (extractShort pkt.p k)

/-- The byte loads; `extend` is how the byte of an mbuf becomes a word. -/
def ldByte (extend : Byte → Word) (pkt : Packet) (k : Int) : Option Word :=
  if toUnsigned k ≥ pkt.buflen then
    if pkt.buflen ≠ 0 then none else (mIndex pkt.m pkt.mNext k).map fun (m, _, k) => extend (m.mtod k)
  else some ((pkt.p k).setWidth 32)

/-- Through `u_char *`. -/
def ldByteAbs : Packet → Int → Option Word := ldByte (·.setWidth 32)

/-- Through `char *`. -/
def ldByteInd : Packet → Int → Option Word := ldByte (·.signExtend 32)

/-- `(p[k] & 0xf) << 2`; the mbuf's byte is read through `char *`. -/
def ldMsh (pkt : Packet) (k : Int) : Option Word := (ldByteInd pkt k).map fun b : Word => (b &&& 0xf) <<< 2

/-! ## The machine -/

structure State where
  pc : Int
  A : Word
  X : Word
  mem : Fin BPF_MEMWORDS → Word

inductive Fault where
  | leftProgram | badMem | divZero
deriving DecidableEq, Repr

inductive Result where
  | run (s : State)
  | ret (v : Word)
  | fault (f : Fault)

/-- `k = X + pc->k`, an `int`. -/
def indexed (s : State) (i : Insn) : Int := (s.X + i.k).toInt

/-- Go on with the next instruction, `off` instructions further on. -/
def State.jump (s : State) (off : Int) : Result := .run { s with pc := s.pc + off + 1 }

def State.setA (s : State) (v : Word) : Result := { s with A := v }.jump 0

def State.setX (s : State) (v : Word) : Result := { s with X := v }.jump 0

/-- A packet load into `A`, or `return 0`. -/
def State.loadA (s : State) : Option Word → Result
  | none => .ret 0
  | some v => s.setA v

def State.loadX (s : State) : Option Word → Result
  | none => .ret 0
  | some v => s.setX v

/-- An access to `mem[pc->k]`. -/
def memAt (i : Insn) (go : Fin BPF_MEMWORDS → Result) : Result :=
  if h : 0 ≤ i.k.toInt ∧ i.k.toInt < BPF_MEMWORDS then go ⟨i.k.toInt.toNat, by omega⟩ else .fault .badMem

def State.operand (s : State) (i : Insn) : Src → Word
  | .k => i.k
  | .x => s.X

def Cond.eval (c : Cond) (a v : Word) : Bool :=
  match c with
  | .jgt => a > v
  | .jge => a ≥ v
  | .jeq => a = v
  | .jset => a &&& v ≠ 0

def AluOp.eval (o : AluOp) (a v : Word) : Word :=
  match o with
  | .add => a + v
  | .sub => a - v
  | .mul => a * v
  | .div => a / v
  | .and => a &&& v
  | .or => a ||| v
  | .lsh => a <<< (v.toNat % 32)
  | .rsh => a >>> (v.toNat % 32)

/-- The body of one case. -/
def exec (pkt : Packet) (wirelen : Word) (s : State) (i : Insn) : Op → Result
  | .retK => .ret i.k
  | .retA => .ret s.A
  | .ldWAbs => s.loadA (ldWord pkt i.k.toInt)
  | .ldHAbs => s.loadA (ldHalfAbs pkt i.k.toInt)
  | .ldBAbs => s.loadA (ldByteAbs pkt i.k.toInt)
  | .ldLen => s.setA wirelen
  | .ldxLen => s.setX wirelen
  | .ldWInd => s.loadA (ldWord pkt (indexed s i))
  | .ldHInd => s.loadA (ldHalfInd pkt (indexed s i))
  | .ldBInd => s.loadA (ldByteInd pkt (indexed s i))
  | .ldxMsh => s.loadX (ldMsh pkt i.k.toInt)
  | .ldImm => s.setA i.k
  | .ldxImm => s.setX i.k
  | .ldMem => memAt i fun j => s.setA (s.mem j)
  | .ldxMem => memAt i fun j => s.setX (s.mem j)
  | .st => memAt i fun j => { s with mem := Function.update s.mem j s.A }.jump 0
  | .stx => memAt i fun j => { s with mem := Function.update s.mem j s.X }.jump 0
  | .ja => s.jump i.k.toInt
  | .jmp c src => s.jump (if c.eval s.A (s.operand i src) then i.jt.toNat else i.jf.toNat)
  | .alu .div .x => if s.X = 0 then .ret 0 else s.setA (AluOp.div.eval s.A s.X)
  | .alu .div .k => if i.k = 0 then .fault .divZero else s.setA (AluOp.div.eval s.A i.k)
  | .alu o src => s.setA (o.eval s.A (s.operand i src))
  | .neg => s.setA (-s.A)
  | .tax => s.setX s.A
  | .txa => s.setA s.X

/-- The instruction at `pc`. -/
def fetch (f : List Insn) (pc : Int) : Option Insn := if 0 ≤ pc then f[pc.toNat]? else none

/-- One turn of `while (1)`. -/
def step (f : List Insn) (pkt : Packet) (wirelen : Word) (s : State) : Result :=
  match fetch f s.pc with
  | none => .fault .leftProgram
  | some i =>
    match switch i.code with
    | none => .ret 0
    | some o => exec pkt wirelen s i o

/-- How a run ends. -/
inductive Outcome where
  | ret (v : Word)
  | fault (f : Fault)
deriving DecidableEq, Repr

/-- At most `n` turns of the loop from `s`; `none` if it is still running. -/
def run (f : List Insn) (pkt : Packet) (wirelen : Word) : Nat → State → Option Outcome
  | 0, _ => none
  | n + 1, s =>
    match step f pkt wirelen s with
    | .run s' => run f pkt wirelen n s'
    | .ret v => some (.ret v)
    | .fault e => some (.fault e)

/-- The states of the first `n` turns. -/
def visited (f : List Insn) (pkt : Packet) (wirelen : Word) : Nat → State → List State
  | 0, _ => []
  | n + 1, s =>
    s :: match step f pkt wirelen s with
      | .run s' => visited f pkt wirelen n s'
      | _ => []

/-- What the stack held where `A`, `X` and `mem` are. -/
structure Garbage where
  A : Word
  X : Word
  mem : Fin BPF_MEMWORDS → Word

def Garbage.start (g : Garbage) : State := ⟨0, g.A, g.X, g.mem⟩

/-- `bpf_filter` with at most `n` instructions executed; no program accepts
every packet. -/
def bpfFilter (f : Option (List Insn)) (pkt : Packet) (wirelen : Word) (g : Garbage) (n : Nat) : Option Outcome :=
  match f with
  | none => some (.ret (-1))
  | some f => run f pkt wirelen n g.start

/-! ## The validator -/

/-- The body of the loop of `bpf_validate` at index `i`; `false` is `return 0`. -/
def validInsn (len i : Nat) (p : Insn) : Bool :=
  let start : Nat := i + 1
  let jumps :=
    if BPF_CLASS p.code = BPF_JMP then
      if BPF_OP p.code = BPF_JA then decide (¬(BitVec.ofNat 32 start + p.k).toInt ≥ len)
      else decide (¬(start + p.jt.toNat ≥ len ∨ start + p.jf.toNat ≥ len))
    else true
  let memory :=
    decide ¬((BPF_CLASS p.code = BPF_ST ∨ (BPF_CLASS p.code = BPF_LD ∧ BPF_MODE p.code = BPF_MEM)) ∧
      (p.k.toInt ≥ BPF_MEMWORDS ∨ p.k.toInt < 0))
  let division := decide ¬(p.code = BPF_ALU ||| BPF_DIV ||| BPF_K ∧ p.k = 0)
  jumps && memory && division

/-- The loop from index `i` on. -/
def validFrom (len : Nat) : Nat → List Insn → Bool
  | _, [] => true
  | i, p :: rest => validInsn len i p && validFrom len (i + 1) rest

def bpfValidate (f : List Insn) : Bool :=
  validFrom f.length 0 f &&
    match f.getLast? with
    | none => false
    | some p => BPF_CLASS p.code = BPF_RET

end BsdKernel.Bpf
