import BsdKernel.Kern.Bio
import Mathlib.Algebra.BigOperators.Group.Finset.Basic
import Mathlib.Tactic
/-!
# The invariant of the buffer cache

What holds of one buffer (`BufOk`) and of one process in a call (`Pc.Ok`), and that a step
on one buffer leaves the others alone (`Outside`).
-/

namespace BsdKernel.Bio

open BsdKernel.Lib

variable {P : Type} {nbuf : Nat}
variable {pc : Pc nbuf} {b : Fin nbuf}

/-! ## Processes -/

/-- The buffer that `breada` holds while it gets the one ahead, and whether it will wait for it. -/
def Call.held : Call nbuf → Option (Fin nbuf × Bool)
  | .ahead _ _ _ bp needwait => some (bp, needwait)
  | .getblk _ _ _ | .bread _ _ _ | .breada _ _ _ _ | .geteblk _ => none

namespace Pc

def ahead : Pc nbuf → Option (Fin nbuf × Bool)
  | .run c | .sleep _ c | .alloc _ c _ => c.held
  | .user | .biowait _ _ => none

/-- The buffer that the process itself is at work on. -/
def at? : Pc nbuf → Option (Fin nbuf)
  | .alloc b _ _ | .biowait b _ => some b
  | .user | .run _ | .sleep _ _ => none

/-- The process has the buffer inside its call. -/
def Refs (pc : Pc nbuf) (b : Fin nbuf) : Prop := pc.at? = some b ∨ ∃ needwait, pc.ahead = some (b, needwait)

/-- The process waits for the driver's work on the buffer, now or later in its call. -/
def Waits (pc : Pc nbuf) (b : Fin nbuf) : Prop := (∃ release, pc = .biowait b release) ∨ pc.ahead = some (b, true)

theorem Waits.refs (h : pc.Waits b) : pc.Refs b := by
  obtain ⟨release, rfl⟩ | h := h
  · exact Or.inl rfl
  · exact Or.inr ⟨true, h⟩

@[simp] theorem not_refs_user (b : Fin nbuf) : ¬(Pc.user : Pc nbuf).Refs b := by simp [Refs, at?, ahead]

@[simp] theorem not_waits_user (b : Fin nbuf) : ¬(Pc.user : Pc nbuf).Waits b := by simp [Waits, ahead]

/-- The process is where it was, but may have been woken up. -/
def Woken (pc pc' : Pc nbuf) : Prop := pc' = pc ∨ ∃ chan c, pc = .sleep chan c ∧ pc' = .run c

namespace Woken
variable {pc pc' pc'' : Pc nbuf} {b : Fin nbuf}

theorem rfl' : Woken pc pc := Or.inl rfl

theorem trans (h : Woken pc pc') (h' : Woken pc' pc'') : Woken pc pc'' := by
  obtain rfl | ⟨chan, c, rfl, rfl⟩ := h
  · exact h'
  · obtain rfl | ⟨_, _, he, -⟩ := h'
    · exact Or.inr ⟨chan, c, rfl, rfl⟩
    · exact nomatch he

theorem of_wakeup (chan : Chan nbuf) (pc : Pc nbuf) : Woken pc (pc.wakeup chan) := by
  cases pc with
  | sleep ch c =>
    by_cases he : ch = chan
    · exact Or.inr ⟨ch, c, rfl, if_pos he⟩
    · exact Or.inl (if_neg he)
  | _ => exact Or.inl rfl

theorem waits (h : Woken pc pc') : pc'.Waits b ↔ pc.Waits b := by
  obtain rfl | ⟨chan, c, rfl, rfl⟩ := h
  · rfl
  · simp [Waits, ahead]

theorem eq_run (h : Woken pc pc') {c : Call nbuf} (hc : pc = .run c) : pc' = .run c := by
  obtain rfl | ⟨chan, c', he, -⟩ := h
  · exact hc
  · exact nomatch hc.symm.trans he

end Woken

end Pc

/-! ## One buffer, one process -/

/-- What holds of a header. -/
structure Buf.Ok (x : Buf P) : Prop where
  busy : x.flags.busy = true → ∃ h, x.holders = [h]
  free : x.flags.busy = false → x.holders = []
  io : Holder.io ∈ x.holders → x.active = true ∧ x.flags.async = true
  active : x.active = true → x.flags.busy = true ∧ x.flags.done = false ∧ x.flags.delwri = false
  valid : x.flags.inval = false → x.vp ≠ none
  size : (x.addr.getD []).length = x.bufsize
  cached : x.flags.nocache = false
  clean : x.flags.busy = false → x.flags.inval = true → x.flags.delwri = false

/-- The contents that a delayed write owes are in the buffer, valid and marked for writing. -/
def Buf.Keeps (x : Buf P) : Prop :=
  ∀ vp n d, x.owed = some (vp, n, d) →
    x.flags.delwri = true ∧ x.flags.inval = false ∧ x.vp = some vp ∧ x.lblkno = n ∧ d <+: x.addr.getD []

/-- What a call relies on of the buffer that it holds meanwhile. -/
def Call.Ok (buf : Fin nbuf → Buf P) (p : P) (c : Call nbuf) : Prop :=
  ∀ b needwait, c.held = some (b, needwait) → (buf b).holders = [.proc p] ∧ (buf b).flags.inval = false ∧
    (needwait = true → (buf b).flags.delwri = false ∧ (buf b).flags.async = false)

/-- What a process relies on where it is. -/
def Pc.Ok (buf : Fin nbuf → Buf P) (p : P) : Pc nbuf → Prop
  | .user => True
  | .run c | .sleep _ c => c.Ok buf p
  | .alloc b c true => c.Ok buf p ∧ (buf b).holders = [.proc p] ∧ (buf b).vp = none ∧ (buf b).flags.inval = true
  | .alloc b c false => c.held = none ∧ (buf b).holders = [.proc p] ∧ (buf b).flags.cache = true ∧ (buf b).flags.inval = false
  | .biowait b _ => (buf b).holders = [.proc p] ∧ (buf b).flags.delwri = false ∧ (buf b).flags.async = false

section Frame
variable {buf buf' : Fin nbuf → Buf P} {p : P}

theorem Call.Ok.frame {c : Call nbuf} (h : c.Ok buf p) (hb : ∀ b needwait, c.held = some (b, needwait) → buf' b = buf b) :
    c.Ok buf' p := by
  intro b needwait hc
  rw [hb b needwait hc]
  exact h b needwait hc

/-- A process does not see what happens to the buffers outside its call. -/
theorem Pc.Ok.frame {pc' : Pc nbuf} (h : pc.Ok buf p) (hw : pc.Woken pc') (hb : ∀ b, pc.Refs b → buf' b = buf b) :
    pc'.Ok buf' p := by
  have hcall : ∀ c : Call nbuf, pc.ahead = c.held → c.Ok buf p → c.Ok buf' p :=
    fun c hc ho => ho.frame fun b needwait hn => hb b (Or.inr ⟨needwait, hc.trans hn⟩)
  obtain rfl | ⟨chan, c, rfl, rfl⟩ := hw
  · cases pc' with
    | user => trivial
    | run c => exact hcall c rfl h
    | sleep chan c => exact hcall c rfl h
    | alloc b c new =>
      have he := hb b (Or.inl rfl)
      cases new with
      | true => exact ⟨hcall c rfl h.1, by rw [he]; exact h.2⟩
      | false => exact ⟨h.1, by rw [he]; exact h.2⟩
    | biowait b release =>
      simp only [Pc.Ok, hb b (Or.inl rfl)]
      exact h
  · exact hcall c rfl h

/-- What a process has in its call it holds. -/
theorem Pc.Ok.refs (h : pc.Ok buf p) (hr : pc.Refs b) : (buf b).holders = [.proc p] := by
  have hcall : ∀ c : Call nbuf, c.Ok buf p → (∃ needwait, c.held = some (b, needwait)) → (buf b).holders = [.proc p] :=
    fun c hc ⟨needwait, hn⟩ => (hc b needwait hn).1
  cases pc with
  | user => exact absurd hr (Pc.not_refs_user b)
  | run c => exact hcall c h (hr.resolve_left nofun)
  | sleep chan c => exact hcall c h (hr.resolve_left nofun)
  | alloc b' c new =>
    obtain hr | hr := hr
    · obtain rfl := Option.some.inj hr
      cases new with
      | true => exact h.2.1
      | false => exact h.2.1
    · cases new with
      | true => exact hcall c h.1 hr
      | false => exact absurd (h.1.symm.trans hr.choose_spec) (by simp)
  | biowait b' release =>
    obtain rfl := Option.some.inj (hr.resolve_right (fun ⟨_, hn⟩ => nomatch hn))
    exact h.1

/-- The driver's work that a process waits for does not release the buffer. -/
theorem Pc.Ok.waits (h : pc.Ok buf p) (hw : pc.Waits b) :
    (buf b).flags.delwri = false ∧ (buf b).flags.async = false := by
  obtain ⟨release, rfl⟩ | hw := hw
  · exact h.2
  · cases pc with
    | user => exact nomatch hw
    | run c => exact (h b true hw).2.2 rfl
    | sleep chan c => exact (h b true hw).2.2 rfl
    | alloc b' c new =>
      cases new with
      | true => exact (h.1 b true hw).2.2 rfl
      | false => exact absurd (h.1.symm.trans hw) (by simp)
    | biowait b' release => exact nomatch hw

/-- A process sees only who holds a buffer, whether it is valid and how it is being written. -/
theorem Pc.Ok.congr (h : pc.Ok buf p)
    (hb : ∀ b, (buf' b).holders = (buf b).holders ∧ (buf' b).vp = (buf b).vp ∧ (buf' b).flags.inval = (buf b).flags.inval ∧
      (buf' b).flags.delwri = (buf b).flags.delwri ∧ ((buf b).flags.async = false → (buf' b).flags.async = false) ∧
      ((buf b).flags.cache = true → (buf' b).flags.cache = true)) : pc.Ok buf' p := by
  have hcall : ∀ c : Call nbuf, c.Ok buf p → c.Ok buf' p := by
    intro c hc b needwait hn
    obtain ⟨h₁, -, h₃, h₄, h₅, -⟩ := hb b
    obtain ⟨g₁, g₂, g₃⟩ := hc b needwait hn
    exact ⟨h₁.trans g₁, h₃.trans g₂, fun hw => ⟨h₄.trans (g₃ hw).1, h₅ (g₃ hw).2⟩⟩
  cases pc with
  | user => trivial
  | run c => exact hcall c h
  | sleep chan c => exact hcall c h
  | alloc b c new =>
    obtain ⟨h₁, h₂, h₃, -, -, h₆⟩ := hb b
    cases new with
    | true => exact ⟨hcall c h.1, h₁.trans h.2.1, h₂.trans h.2.2.1, h₃.trans h.2.2.2⟩
    | false => exact ⟨h.1, h₁.trans h.2.1, h₆ h.2.2.1, h₃.trans h.2.2.2⟩
  | biowait b release =>
    obtain ⟨h₁, -, -, h₄, h₅, -⟩ := hb b
    exact ⟨h₁.trans h.1, h₄.trans h.2.1, h₅ h.2.2⟩

end Frame

namespace Cache

variable (s : Cache P nbuf)

/-- The process waits for this buffer, which it holds. -/
def Awaited (b : Fin nbuf) : Prop := ∃ p, (s.buf b).holders = [.proc p] ∧ (s.pc p).Waits b

structure BufOk (b : Fin nbuf) : Prop where
  ok : (s.buf b).Ok
  held : (s.buf b).flags.busy = true → ∀ q, b ∉ s.bfreelist q
  listed : (s.buf b).flags.busy = false → ∃ q, b ∈ s.bfreelist q ∧ ∀ q', b ∈ s.bfreelist q' → q' = q
  empty : b ∈ s.bfreelist .EMPTY → (s.buf b).addr = none ∧ (s.buf b).flags.inval = true
  hash : (s.buf b).flags.inval = false → ∀ vp, (s.buf b).vp = some vp → b ∈ s.bufhash (BUFHASH vp (s.buf b).lblkno)
  waits : (s.buf b).active = true → (s.buf b).holders = [.io] ∨ s.Awaited b
  error : (s.buf b).flags.error = true → (s.buf b).flags.inval = true ∨ s.Awaited b

/-- The invariant; `space` is the space that the boot has set aside. -/
structure Inv (space : Int) : Prop where
  buf : ∀ b, s.BufOk b
  pc : ∀ p, (s.pc p).Ok s.buf p
  nodup : ∀ q, (s.bfreelist q).Nodup
  alloc : s.allocbufspace = ∑ b, ((s.buf b).bufsize : Int)
  total : s.freebufspace + s.allocbufspace = space

/-! ## Steps on one buffer -/

/-- The two states differ in the buffer `b` only, as far as buffers, lists and chains go. -/
structure Outside (s t : Cache P nbuf) (b : Fin nbuf) : Prop where
  buf : ∀ b', b' ≠ b → t.buf b' = s.buf b'
  queue : ∀ b', b' ≠ b → ∀ q, b' ∈ t.bfreelist q ↔ b' ∈ s.bfreelist q
  hash : ∀ b', b' ≠ b → ∀ i, b' ∈ s.bufhash i → b' ∈ t.bufhash i

variable {s} {t u : Cache P nbuf} {b : Fin nbuf} {p : P} {space : Int}

namespace Outside

theorem rfl' : Outside s s b := ⟨fun _ _ => rfl, fun _ _ _ => Iff.rfl, fun _ _ _ h => h⟩

theorem trans (h : Outside s t b) (h' : Outside t u b) : Outside s u b :=
  ⟨fun b' hb => (h'.buf b' hb).trans (h.buf b' hb), fun b' hb q => (h'.queue b' hb q).trans (h.queue b' hb q),
    fun b' hb i hi => h'.hash b' hb i (h.hash b' hb i hi)⟩

theorem modify (f : Buf P → Buf P) : Outside s (s.modify b f) b :=
  ⟨fun _ hb => Function.update_of_ne hb _ _, fun _ _ _ => Iff.rfl, fun _ _ _ h => h⟩

theorem bremfree : Outside s (s.bremfree b) b :=
  ⟨fun _ _ => rfl, fun b' hb q => by simp [Cache.bremfree, hb], fun _ _ _ h => h⟩

theorem bremhash : Outside s (s.bremhash b) b :=
  ⟨fun _ _ => rfl, fun _ _ _ => Iff.rfl, fun b' hb i h => by simpa [Cache.bremhash, hb] using h⟩

theorem binsheadfree (q : BQ) : Outside s (s.binsheadfree b q) b := by
  refine ⟨fun _ _ => rfl, fun b' hb q' => ?_, fun _ _ _ h => h⟩
  by_cases he : q' = q
  · simp [Cache.binsheadfree, he, hb]
  · simp [Cache.binsheadfree, Function.update_of_ne he]

theorem binstailfree (q : BQ) : Outside s (s.binstailfree b q) b := by
  refine ⟨fun _ _ => rfl, fun b' hb q' => ?_, fun _ _ _ h => h⟩
  by_cases he : q' = q
  · simp [Cache.binstailfree, he, hb]
  · simp [Cache.binstailfree, Function.update_of_ne he]

theorem binshash (i : Nat) : Outside s (s.binshash b i) b := by
  refine ⟨fun _ _ => rfl, fun _ _ _ => Iff.rfl, fun b' _ j h => ?_⟩
  by_cases he : j = i
  · subst he
    simp only [Cache.binshash, Function.update_self]
    exact List.mem_cons_of_mem _ h
  · simpa only [Cache.binshash, Function.update_of_ne he] using h

theorem goto [DecidableEq P] (pc : Pc nbuf) : Outside s (s.goto p pc) b := ⟨fun _ _ => rfl, fun _ _ _ => Iff.rfl, fun _ _ _ h => h⟩

theorem wakeup (chan : Chan nbuf) : Outside s (s.wakeup chan) b :=
  ⟨fun _ _ => rfl, fun _ _ _ => Iff.rfl, fun _ _ _ h => h⟩

end Outside

/-- A buffer stays fine while nothing about it changes and its waiter waits. -/
theorem BufOk.frame (h : s.BufOk b) (hbuf : t.buf b = s.buf b) (hq : ∀ q, b ∈ t.bfreelist q ↔ b ∈ s.bfreelist q)
    (hh : ∀ i, b ∈ s.bufhash i → b ∈ t.bufhash i) (hw : ∀ p, (s.pc p).Waits b → (t.pc p).Waits b) : t.BufOk b := by
  have hawait : s.Awaited b → t.Awaited b := by
    rintro ⟨p, hp, hwait⟩
    exact ⟨p, hbuf ▸ hp, hw p hwait⟩
  refine ⟨hbuf ▸ h.ok, ?_, ?_, ?_, ?_, ?_, ?_⟩
  · intro hbusy q
    rw [hq]
    exact h.held (hbuf ▸ hbusy) q
  · intro hfree
    simp only [hq]
    exact h.listed (hbuf ▸ hfree)
  · rw [hq, hbuf]
    exact h.empty
  · intro hi vp hvp
    rw [hbuf] at hi hvp ⊢
    exact hh _ (h.hash hi vp hvp)
  · rw [hbuf]
    exact fun ha => (h.waits ha).imp_right hawait
  · rw [hbuf]
    exact fun he => (h.error he).imp_right hawait

namespace Inv

variable (h : s.Inv space)
include h

theorem not_refs {hs : List (Holder P)} (hb : (s.buf b).holders = hs) (hp : hs ≠ [.proc p]) : ¬(s.pc p).Refs b :=
  fun hr => hp (hb ▸ (h.pc p).refs hr)

/-- A step on one buffer: what has to be shown is about this buffer, and about the processes. -/
theorem of_outside (ho : Outside s t b) (hw : ∀ p b', b' ≠ b → (s.pc p).Waits b' → (t.pc p).Waits b') (hb : t.BufOk b)
    (hp : ∀ p, (t.pc p).Ok t.buf p) (hn : ∀ q, (t.bfreelist q).Nodup)
    (ha : t.allocbufspace = s.allocbufspace + ((t.buf b).bufsize - (s.buf b).bufsize))
    (hf : t.freebufspace + t.allocbufspace = s.freebufspace + s.allocbufspace) : t.Inv space := by
  refine ⟨fun b' => ?_, hp, hn, ?_, hf.trans h.total⟩
  · by_cases he : b' = b
    · exact he ▸ hb
    · exact (h.buf b').frame (ho.buf b' he) (ho.queue b' he) (ho.hash b' he) fun p => hw p b' he
  · have hupd : (fun b' => ((t.buf b').bufsize : Int)) =
        Function.update (fun b' => ((s.buf b').bufsize : Int)) b (t.buf b).bufsize := by
      funext b'
      by_cases he : b' = b
      · rw [he, Function.update_self]
      · rw [Function.update_of_ne he, ho.buf b' he]
    have hsum := Finset.sum_update_of_mem (Finset.mem_univ b) (fun b' => ((s.buf b').bufsize : Int)) ((t.buf b).bufsize : Int)
    have hold := Finset.sum_erase_eq_sub (f := fun b' => ((s.buf b').bufsize : Int)) (Finset.mem_univ b)
    rw [show (∑ b', ((t.buf b').bufsize : Int)) = ∑ b', (fun b' => ((t.buf b').bufsize : Int)) b' from rfl, hupd, hsum,
      ← Finset.erase_eq, hold, ha, h.alloc]
    ring

end Inv

end Cache

end BsdKernel.Bio
