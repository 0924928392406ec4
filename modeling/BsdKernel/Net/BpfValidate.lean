import BsdKernel.Net.BpfFilter
/-!
# What the validator guarantees

`bpf_validate` bounds every conditional jump, every constant division and the
scratch accesses of `BPF_LD|BPF_MEM` and `BPF_ST`. It does not see that the
displacement of `BPF_JMP|BPF_JA` may be negative or that its sum wraps, and it
does not check `BPF_LDX|BPF_MEM` and `BPF_STX` at all. `Insn.Bounded` is what it
leaves out; an accepted program whose executed instructions are `Bounded`
returns within `len` instructions (`validated_returns`).
-/

namespace BsdKernel.Bpf

variable {f : List Insn} {i : Insn} {len n : Nat} {s : State}

/-- What `bpf_validate` does not check of the instruction at index `pc`. -/
def Insn.Bounded (i : Insn) (pc : Int) : Prop :=
  (switch i.code = some .ja → 0 ≤ i.k.toInt ∧ pc + 1 + i.k.toInt < 2 ^ 31) ∧
    (switch i.code = some .ldxMem ∨ switch i.code = some .stx → 0 ≤ i.k.toInt ∧ i.k.toInt < BPF_MEMWORDS)

instance (i : Insn) (pc : Int) : Decidable (i.Bounded pc) := by unfold Insn.Bounded; infer_instance

/-! ## The checks that were made -/

theorem switch_label {c : BitVec 16} {o : Op} (h : switch c = some o) : c = o.label := by
  have hl := List.find?_some h
  rw [beq_iff_eq] at hl
  exact hl.symm

theorem fetch_some {pc : Int} (h : fetch f pc = some i) : ∃ n : Nat, pc = n ∧ n < f.length ∧ f[n]? = some i := by
  unfold fetch at h
  split at h
  · refine ⟨pc.toNat, by omega, ?_, h⟩
    exact (List.getElem?_eq_some_iff.1 h).1
  · cases h

theorem validFrom_get {j : Nat} (h : validFrom len j f = true) (hi : f[n]? = some i) :
    validInsn len (j + n) i = true := by
  induction f generalizing j n with
  | nil => simp at hi
  | cons p f ih =>
    simp only [validFrom, Bool.and_eq_true] at h
    cases n with
    | zero => simp only [List.getElem?_cons_zero, Option.some.injEq] at hi; subst hi; exact h.1
    | succ n =>
      have := ih h.2 (by simpa using hi)
      rwa [show j + (n + 1) = j + 1 + n by omega]

theorem valid_get (hv : bpfValidate f = true) (hi : f[n]? = some i) : validInsn f.length n i = true := by
  simp only [bpfValidate, Bool.and_eq_true] at hv
  simpa using validFrom_get hv.1 hi

theorem valid_last (hv : bpfValidate f = true) (hi : f[n]? = some i) (hc : BPF_CLASS i.code ≠ BPF_RET) :
    n + 1 < f.length := by
  have hlt : n < f.length := (List.getElem?_eq_some_iff.1 hi).1
  simp only [bpfValidate, Bool.and_eq_true] at hv
  by_contra hn
  have hlast : f.getLast? = some i := by
    rw [List.getLast?_eq_getElem?, show f.length - 1 = n by omega, hi]
  rw [hlast] at hv
  exact hc (by simpa using hv.2)

section Checks
variable {len n : Nat} {i : Insn} {c : Cond} {s : Src}

theorem valid_jmp (hv : validInsn len n i = true) (hs : switch i.code = some (.jmp c s)) :
    n + 1 + i.jt.toNat < len ∧ n + 1 + i.jf.toNat < len := by
  have hl := switch_label hs
  have hcls : BPF_CLASS i.code = BPF_JMP := by rw [hl]; cases c <;> cases s <;> decide
  have hop : BPF_OP i.code ≠ BPF_JA := by rw [hl]; cases c <;> cases s <;> decide
  simp only [validInsn, hcls, hop, if_true, if_false, Bool.and_eq_true, decide_eq_true_eq] at hv
  omega

theorem valid_ja (hv : validInsn len n i = true) (hs : switch i.code = some .ja) :
    (BitVec.ofNat 32 (n + 1) + i.k).toInt < len := by
  have hl := switch_label hs
  have hcls : BPF_CLASS i.code = BPF_JMP := by rw [hl]; decide
  have hop : BPF_OP i.code = BPF_JA := by rw [hl]; decide
  simp only [validInsn, hcls, hop, if_true, Bool.and_eq_true, decide_eq_true_eq] at hv
  omega

theorem valid_mem (hv : validInsn len n i = true) (hs : switch i.code = some .ldMem ∨ switch i.code = some .st) :
    0 ≤ i.k.toInt ∧ i.k.toInt < BPF_MEMWORDS := by
  have hm : BPF_CLASS i.code = BPF_ST ∨ (BPF_CLASS i.code = BPF_LD ∧ BPF_MODE i.code = BPF_MEM) := by
    rcases hs with hs | hs <;> rw [switch_label hs]
    · exact .inr (by decide)
    · exact .inl (by decide)
  simp only [validInsn, Bool.and_eq_true, decide_eq_true_eq] at hv
  obtain ⟨⟨-, hmem⟩, -⟩ := hv
  have : ¬(i.k.toInt ≥ BPF_MEMWORDS ∨ i.k.toInt < 0) := fun h => hmem ⟨hm, h⟩
  omega

theorem valid_div (hv : validInsn len n i = true) (hs : switch i.code = some (.alu .div .k)) : i.k ≠ 0 := by
  have hl := switch_label hs
  simp only [validInsn, Bool.and_eq_true, decide_eq_true_eq] at hv
  exact fun hk => hv.2 ⟨hl, hk⟩

end Checks

/-! ## One instruction -/

/-- A jump whose displacement does not wrap in `from + p->k`. -/
theorem toInt_from_add {k : Word} (h0 : 0 ≤ k.toInt) (hlt : (n : Int) + 1 + k.toInt < 2 ^ 31) :
    (BitVec.ofNat 32 (n + 1) + k).toInt = n + 1 + k.toInt := by
  have hn : (BitVec.ofNat 32 (n + 1)).toInt = n + 1 := by
    rw [BitVec.toInt_ofNat', Int.bmod_eq_of_le (by omega) (by omega)]
    rfl
  rw [BitVec.toInt_add, hn]
  exact Int.bmod_eq_of_le (by omega) (by omega)

/-- The result of the instruction at `pc`: a return, or further on inside a
program of `len` instructions. -/
def Result.Forward (len : Nat) (pc : Int) : Result → Prop
  | .ret _ => True
  | .run s => pc < s.pc ∧ s.pc < len
  | .fault _ => False

theorem forward_next {pc : Int} (hpc : s.pc = pc) (h : pc + 1 < len) : (s.jump 0).Forward len pc := by
  simp only [State.jump, Result.Forward]
  omega

theorem forward_loadA (h : s.pc + 1 < len) (v : Option Word) : (s.loadA v).Forward len s.pc := by
  cases v with
  | none => trivial
  | some v => exact forward_next rfl h

theorem forward_loadX (h : s.pc + 1 < len) (v : Option Word) : (s.loadX v).Forward len s.pc := by
  cases v with
  | none => trivial
  | some v => exact forward_next rfl h

theorem forward_memAt {pc : Int} {go : Fin BPF_MEMWORDS → Result} (hk : 0 ≤ i.k.toInt ∧ i.k.toInt < BPF_MEMWORDS)
    (hgo : ∀ j, (go j).Forward len pc) : (memAt i go).Forward len pc := by
  rw [memAt, dif_pos hk]
  exact hgo _

/-- An accepted and `Bounded` instruction returns or goes on further inside the
program. -/
theorem step_forward (pkt : Packet) (wirelen : Word) (hv : bpfValidate f = true) (hi : fetch f s.pc = some i)
    (hb : i.Bounded s.pc) : (step f pkt wirelen s).Forward f.length s.pc := by
  obtain ⟨n, hn, hlt, hget⟩ := fetch_some hi
  have hvi := valid_get hv hget
  simp only [step, hi]
  cases ho : switch i.code with
  | none => trivial
  | some o =>
    have hcls := switch_label ho
    -- Only the two cases of class `BPF_RET` can be the last instruction.
    have hnext : BPF_CLASS o.label ≠ BPF_RET → s.pc + 1 < f.length := fun hc => by
      have := valid_last hv hget (by rw [hcls]; exact hc)
      omega
    simp only
    cases o with
    | retK => trivial
    | retA => trivial
    | ldWAbs | ldHAbs | ldBAbs | ldWInd | ldHInd | ldBInd => exact forward_loadA (hnext (by decide)) _
    | ldxMsh => exact forward_loadX (hnext (by decide)) _
    | ldLen | ldxLen | ldImm | ldxImm | neg | tax | txa => exact forward_next rfl (hnext (by decide))
    | ldMem =>
      simp only [exec]
      refine forward_memAt (valid_mem hvi (.inl ho)) fun j => ?_
      exact forward_next rfl (hnext (by decide))
    | st =>
      simp only [exec]
      refine forward_memAt (valid_mem hvi (.inr ho)) fun j => ?_
      exact forward_next rfl (hnext (by decide))
    | ldxMem =>
      simp only [exec]
      refine forward_memAt (hb.2 (.inl ho)) fun j => ?_
      exact forward_next rfl (hnext (by decide))
    | stx =>
      simp only [exec]
      refine forward_memAt (hb.2 (.inr ho)) fun j => ?_
      exact forward_next rfl (hnext (by decide))
    | ja =>
      obtain ⟨h0, hw⟩ := hb.1 ho
      have hj := valid_ja hvi ho
      rw [toInt_from_add h0 (by omega)] at hj
      simp only [exec, State.jump, Result.Forward]
      omega
    | jmp c src =>
      obtain ⟨ht, hf⟩ := valid_jmp hvi ho
      simp only [exec, State.jump, Result.Forward]
      split <;> omega
    | alu o src =>
      have hc : BPF_CLASS (Op.label (.alu o src)) ≠ BPF_RET := by cases o <;> cases src <;> decide
      cases o <;> cases src
      case div.k =>
        simp only [exec, valid_div hvi ho, if_false]
        exact forward_next rfl (hnext hc)
      case div.x =>
        simp only [exec]
        split
        · trivial
        · exact forward_next rfl (hnext hc)
      all_goals exact forward_next rfl (hnext hc)

/-! ## Runs -/

theorem run_returns {pkt : Packet} {wirelen : Word} (hv : bpfValidate f = true) (n : Nat) (s : State) (h0 : 0 ≤ s.pc)
    (hlt : s.pc < f.length) (hn : f.length ≤ s.pc + n)
    (hb : ∀ t ∈ visited f pkt wirelen n s, ∀ i, fetch f t.pc = some i → i.Bounded t.pc) :
    ∃ v, run f pkt wirelen n s = some (.ret v) := by
  induction n generalizing s with
  | zero => omega
  | succ n ih =>
    obtain ⟨i, hi⟩ : ∃ i, fetch f s.pc = some i := by
      rw [fetch, if_pos h0]
      exact ⟨_, List.getElem?_eq_getElem (by omega)⟩
    have hf := step_forward pkt wirelen hv hi (hb s (by simp [visited]) i hi)
    cases hs : step f pkt wirelen s with
    | ret v => exact ⟨v, by simp [run, hs]⟩
    | fault e => rw [hs] at hf; exact hf.elim
    | run s' =>
      rw [hs] at hf
      obtain ⟨hgt, hlt'⟩ := hf
      obtain ⟨v, hr⟩ := ih s' (by omega) hlt' (by omega) (fun t ht => hb t (by simp [visited, hs, ht]))
      exact ⟨v, by simp [run, hs, hr]⟩

/-- In every run of a program `bpf_validate` accepts in which every `BPF_JA`
executed has a displacement that is neither negative nor wraps and every
`BPF_LDX|BPF_MEM` and `BPF_STX` executed a scratch index in range, `bpf_filter`
returns within `len` instructions: it never leaves the program, never indexes
`mem` out of range and never divides by zero. -/
theorem validated_returns (f : List Insn) (hlen : 1 ≤ f.length) (hv : bpfValidate f = true) (pkt : Packet)
    (wirelen : Word) (g : Garbage)
    (hb : ∀ s ∈ visited f pkt wirelen f.length g.start, ∀ i, fetch f s.pc = some i → i.Bounded s.pc) :
    ∃ v, bpfFilter (some f) pkt wirelen g f.length = some (.ret v) :=
  run_returns hv f.length g.start (by simp [Garbage.start]) (by simp only [Garbage.start]; omega)
    (by simp [Garbage.start]) hb

/-- An empty chain of one mbuf, and zeroed registers. -/
def noPacket : Packet := ⟨fun _ => 0, ⟨0, fun _ => 0⟩, [], 0⟩

def zeroed : Garbage := ⟨0, 0, fun _ => 0⟩

/-- A jump forward, a store through `BPF_STX` and a load back. -/
def scratchProgram : List Insn :=
  [stmt (BPF_JMP ||| BPF_JA) 1, stmt BPF_RET 0, stmt BPF_STX 15, stmt (BPF_LDX ||| BPF_MEM) 15,
    stmt (BPF_RET ||| BPF_A) 0]

theorem validated_returns_scratch :
    ∃ v, bpfFilter (some scratchProgram) noPacket 0 zeroed scratchProgram.length = some (.ret v) :=
  validated_returns scratchProgram (by decide) (by decide) noPacket 0 zeroed (by
    intro s hs i hi
    have hpc : s.pc ∈ [0, 2, 3, (4 : Int)] := by
      have := List.mem_map_of_mem (f := State.pc) hs
      exact this
    simp only [List.mem_cons, List.not_mem_nil, or_false] at hpc
    rcases hpc with h | h | h | h <;> rw [h] at hi ⊢ <;> cases hi <;> decide)

/-- A jump to itself. -/
def selfJump : List Insn := [stmt (BPF_JMP ||| BPF_JA) (-1), stmt BPF_RET 0]

/-- A load behind the scratch memory. -/
def loadBehind : List Insn := [stmt (BPF_LDX ||| BPF_MEM) 16, stmt BPF_RET 0]

/-- Both programs are accepted: the first never returns, the second indexes
`mem[16]`. -/
theorem validated_unsafe :
    (bpfValidate selfJump = true ∧ ∀ n, bpfFilter (some selfJump) noPacket 0 zeroed n = none) ∧
      bpfValidate loadBehind = true ∧ bpfFilter (some loadBehind) noPacket 0 zeroed 1 = some (.fault .badMem) := by
  refine ⟨⟨by decide, fun n => ?_⟩, by decide, rfl⟩
  induction n with
  | zero => rfl
  | succ n ih => exact ih

end BsdKernel.Bpf
