import BsdKernel.Kern.BioInv
/-!
# The operations of the buffer cache

Each function of `kern/fs/bio.c` keeps the invariant (`Inv`), keeps the contents that delayed
writes owe, and gives no buffer a block but where `getblk` and `breada` hash a new one
(`Good`).
-/

namespace BsdKernel.Bio

open BsdKernel.Lib

set_option linter.unusedSectionVars false

variable {P : Type} {nbuf : Nat}
variable {x : Buf P} {k : Vnode × Int} {f : Buf P → Buf P} {c : Call nbuf} {contents : Nat → UInt8}

namespace Buf

theorem brelse_junk (x : Buf P) (hj : x.junk = true) : x.brelse = { x with vp := none, flags := { inval := true } } := by
  simp [brelse, setFlags, hj]

theorem brelse_flags (x : Buf P) (hj : x.junk = false) : ∃ age, x.brelse = { x with
    flags := { x.flags with wanted := false, cache := false, nocache := false, busy := false, age := age } } := by
  by_cases ha : (x.flags.age && !x.flags.cache) = true
  · exact ⟨true, by simp [brelse, setFlags, hj, ha]⟩
  · exact ⟨false, by simp [brelse, setFlags, hj, ha]⟩

theorem startWrite_eq (x : Buf P) (async : Bool) : ∃ age, (x.startWrite async).strategy = { x with
    flags := { x.flags with
      read := false, done := false, error := false, delwri := false, async := async, age := age, dirty := true }
    active := true
    owed := none } := by
  cases hd : x.flags.delwri with
  | true => exact ⟨true, by simp [startWrite, strategy, setFlags, hd]⟩
  | false => exact ⟨x.flags.age, by simp [startWrite, strategy, setFlags, hd]⟩

theorem brelse_owed (x : Buf P) : x.brelse.owed = x.owed := by
  cases hj : x.junk with
  | true => rw [brelse_junk x hj]
  | false =>
    obtain ⟨age, he⟩ := brelse_flags x hj
    rw [he]

/-- The header of a buffer that the driver has finished with. -/
theorem complete_eq (x : Buf P) (hs : (x.addr.getD []).length = x.bufsize) (err : Option Nat) (contents : Nat → UInt8) :
    ∃ error dirty e addr, x.complete err contents =
      { x with flags := { x.flags with error := error, dirty := dirty }, error := e, addr := addr, active := false } ∧
        (addr.getD []).length = x.bufsize := by
  have hmem : (memory x.bufsize contents).length = x.bufsize := by simp [memory]
  cases err with
  | some e =>
    by_cases hd : (!x.flags.read && x.flags.dirty) = true
    · exact ⟨true, false, e, x.addr, by simp [complete, setFlags, hd], hs⟩
    · exact ⟨true, x.flags.dirty, e, x.addr, by simp [complete, setFlags, hd], hs⟩
  | none =>
    cases hr : x.flags.read with
    | true =>
      refine ⟨x.flags.error, x.flags.dirty, x.error, some (memory x.bufsize contents), ?_, hmem⟩
      simp only [complete]
      rw [if_pos hr, if_neg (by simp [hr])]
    | false =>
      by_cases hd : x.flags.dirty = true
      · exact ⟨x.flags.error, false, x.error, x.addr, by simp [complete, setFlags, hr, hd], hs⟩
      · refine ⟨x.flags.error, x.flags.dirty, x.error, x.addr, ?_, hs⟩
        simp only [complete]
        rw [if_neg (show ¬x.flags.read = true by simp [hr]), if_neg (by simp [hd])]

/-- The header of a buffer that `h` holds; `wait` says that its holder waits for the driver. -/
structure Held (x : Buf P) (h : Holder P) (wait : Prop) : Prop where
  busy : x.flags.busy = true
  holders : x.holders = [h]
  io : h = .io → x.active = true ∧ x.flags.async = true
  active : x.active = true → x.flags.done = false ∧ x.flags.delwri = false ∧ (h = .io ∨ wait)
  error : x.flags.error = true → x.flags.inval = true ∨ wait
  cached : x.flags.nocache = false
  valid : x.flags.inval = false → x.vp ≠ none
  size : (x.addr.getD []).length = x.bufsize

theorem Held.idle {p : P} (h : x.Held (.proc p) False) : x.active = false := by
  cases ha : x.active with
  | false => rfl
  | true => exact ((h.active ha).2.2.elim (by intro hp; cases hp) id).elim

/-- The header of a buffer on a free list. -/
structure Free (x : Buf P) : Prop where
  busy : x.flags.busy = false
  holders : x.holders = []
  idle : x.active = false
  error : x.flags.error = false
  cached : x.flags.nocache = false
  clean : x.flags.inval = true → x.flags.delwri = false
  valid : x.flags.inval = false → x.vp ≠ none
  size : (x.addr.getD []).length = x.bufsize

end Buf

theorem Buf.queue_ne (x : Buf P) : x.queue ≠ .EMPTY := by
  unfold Buf.queue
  split <;> decide

namespace Cache

variable {s t u : Cache P nbuf} {b : Fin nbuf} {p : P} {space : Int} {h : Holder P}

/-- No buffer gets valid, or another block, in the step. -/
def Quiet (s t : Cache P nbuf) : Prop :=
  ∀ b, (t.buf b).flags.inval = false →
    (s.buf b).flags.inval = false ∧ (t.buf b).vp = (s.buf b).vp ∧ (t.buf b).lblkno = (s.buf b).lblkno

/-- What is owed stays owed and in place. -/
def Keeping (s t : Cache P nbuf) : Prop := (∀ b, (s.buf b).Keeps) → ∀ b, (t.buf b).Keeps

/-- What a step does that hashes no buffer. -/
structure Good (space : Int) (s t : Cache P nbuf) : Prop where
  inv : t.Inv space
  quiet : Quiet s t
  keeping : Keeping s t

theorem Quiet.unique (h : Quiet s t) (hu : Unique s) : Unique t := by
  intro b b' hb hb' hvp hn
  obtain ⟨h₁, h₂, h₃⟩ := h b hb
  obtain ⟨g₁, g₂, g₃⟩ := h b' hb'
  exact hu b b' h₁ g₁ (h₂.symm.trans (hvp.trans g₂)) (h₃.symm.trans (hn.trans g₃))

theorem Quiet.cached (h : Quiet s t) : t.Cached k → s.Cached k := by
  rintro ⟨b, hb, hvp, hn⟩
  obtain ⟨h₁, h₂, h₃⟩ := h b hb
  exact ⟨b, h₁, h₂.symm.trans hvp, h₃.symm.trans hn⟩

theorem Good.trans (h : Good space s t) (h' : Good space t u) : Good space s u := by
  refine ⟨h'.inv, fun b hb => ?_, fun hk => h'.keeping (h.keeping hk)⟩
  obtain ⟨h₁, h₂, h₃⟩ := h'.quiet b hb
  obtain ⟨g₁, g₂, g₃⟩ := h.quiet b h₁
  exact ⟨g₁, h₂.trans g₂, h₃.trans g₃⟩

theorem Outside.quiet (ho : Outside s t b) (hb : (t.buf b).flags.inval = false →
    (s.buf b).flags.inval = false ∧ (t.buf b).vp = (s.buf b).vp ∧ (t.buf b).lblkno = (s.buf b).lblkno) : Quiet s t := by
  intro b' hi
  by_cases he : b' = b
  · exact he ▸ hb (he ▸ hi)
  · rw [ho.buf b' he] at hi ⊢
    exact ⟨hi, rfl, rfl⟩

theorem Outside.keeping (ho : Outside s t b) (hb : (∀ b, (s.buf b).Keeps) → (t.buf b).Keeps) : Keeping s t := by
  intro hk b'
  by_cases he : b' = b
  · exact he ▸ hb hk
  · rw [ho.buf b' he]
    exact hk b'

/-! ## brelse -/

variable [DecidableEq P]

/-- What `brelse` does to the state around the header. -/
structure Released (h : Holder P) (b : Fin nbuf) (s t : Cache P nbuf) : Prop where
  outside : Outside s t b
  buf : t.buf b = (s.buf b).brelse.give h
  hash : t.bufhash = s.bufhash
  pc : ∀ p, (s.pc p).Woken (t.pc p)
  queue : ∀ q, b ∈ t.bfreelist q ↔ b ∈ s.bfreelist q ∨ q = (s.buf b).queue
  nodup : (∀ q, b ∉ s.bfreelist q) → (∀ q, (s.bfreelist q).Nodup) → ∀ q, (t.bfreelist q).Nodup
  free : t.freebufspace = s.freebufspace
  alloc : t.allocbufspace = s.allocbufspace

theorem brelse_spec (h : Holder P) (b : Fin nbuf) (s : Cache P nbuf) : Released h b s (s.brelse h b) := by
  -- the wakeups change where processes are and nothing else
  obtain ⟨u, hu, hbuf, hlist, hhash, hpc, hfree, halloc⟩ : ∃ u : Cache P nbuf,
      (let u := if s.wanted then { s with wanted := false }.wakeup .freelist else s
       if (s.buf b).flags.wanted then u.wakeup (.buf b) else u) = u ∧ u.buf = s.buf ∧ u.bfreelist = s.bfreelist ∧
        u.bufhash = s.bufhash ∧ (∀ p, (s.pc p).Woken (u.pc p)) ∧ u.freebufspace = s.freebufspace ∧
        u.allocbufspace = s.allocbufspace := by
    refine ⟨_, rfl, ?_⟩
    have hw : ∀ chan (pc : Pc nbuf), pc.Woken (pc.wakeup chan) := Pc.Woken.of_wakeup
    by_cases h₁ : s.wanted = true
    · by_cases h₂ : (s.buf b).flags.wanted = true
      · simp only [h₁, h₂, if_true]
        exact ⟨rfl, rfl, rfl, fun p => (hw .freelist (s.pc p)).trans (hw (.buf b) _), rfl, rfl⟩
      · simp only [h₁, h₂, if_true]
        exact ⟨rfl, rfl, rfl, fun p => hw .freelist (s.pc p), rfl, rfl⟩
    · by_cases h₂ : (s.buf b).flags.wanted = true
      · simp only [h₁, h₂, if_true]
        exact ⟨rfl, rfl, rfl, fun p => hw (.buf b) (s.pc p), rfl, rfl⟩
      · simp only [h₁, h₂]
        exact ⟨rfl, rfl, rfl, fun p => Pc.Woken.rfl', rfl, rfl⟩
  have hout : Outside s u b := ⟨fun b' _ => by rw [hbuf], fun b' _ q => by rw [hlist], fun b' _ i hi => by rwa [hhash]⟩
  have he : s.brelse h b = if (s.buf b).junk then (u.modify b fun x => x.brelse.give h).binsheadfree b .AGE
      else (u.modify b fun x => x.brelse.give h).binstailfree b (s.buf b).queue := by
    rw [← hu]
    rfl
  have hm : (u.modify b fun x => x.brelse.give h).buf b = (s.buf b).brelse.give h := by
    simp [Cache.modify, hbuf]
  rw [he]
  by_cases hj : (s.buf b).junk = true
  · have hq : (s.buf b).queue = .AGE := by simp [Buf.queue, hj]
    rw [if_pos hj]
    refine ⟨hout.trans ((Outside.modify _).trans (Outside.binsheadfree _)), hm, hhash, hpc, fun q => ?_, fun hb hn q => ?_,
      hfree, halloc⟩
    · rw [hq]
      by_cases hqe : q = .AGE
      · simp [Cache.binsheadfree, hqe]
      · simp [Cache.binsheadfree, hqe, Cache.modify, hlist]
    · by_cases hqe : q = .AGE
      · simp [Cache.binsheadfree, hqe, Cache.modify, hlist, hb, hn]
      · simp [Cache.binsheadfree, Function.update_of_ne hqe, Cache.modify, hlist, hn]
  · rw [if_neg hj]
    refine ⟨hout.trans ((Outside.modify _).trans (Outside.binstailfree _)), hm, hhash, hpc, fun q => ?_, fun hb hn q => ?_,
      hfree, halloc⟩
    · by_cases hqe : q = (s.buf b).queue
      · simp [Cache.binstailfree, hqe]
      · simp [Cache.binstailfree, hqe, Cache.modify, hlist]
    · by_cases hqe : q = (s.buf b).queue
      · rw [show ((u.modify b fun x => x.brelse.give h).binstailfree b (s.buf b).queue).bfreelist q = s.bfreelist q ++ [b] by
          simp [Cache.binstailfree, hqe, Cache.modify, hlist]]
        exact List.nodup_append_comm.1 (List.nodup_cons.2 ⟨hb q, hn q⟩)
      · simp [Cache.binstailfree, Function.update_of_ne hqe, Cache.modify, hlist, hn]

theorem BufOk.of_free (h : (t.buf b).Free) (hq : ∃ q, q ≠ .EMPTY ∧ ∀ q', b ∈ t.bfreelist q' ↔ q' = q)
    (hhash : (t.buf b).flags.inval = false → ∀ vp, (t.buf b).vp = some vp → b ∈ t.bufhash (BUFHASH vp (t.buf b).lblkno)) :
    t.BufOk b := by
  obtain ⟨q, hne, hq⟩ := hq
  have hbusy : (t.buf b).flags.busy ≠ true := by simp [h.busy]
  have hact : (t.buf b).active ≠ true := by simp [h.idle]
  refine ⟨⟨fun hb => absurd hb hbusy, fun _ => h.holders, fun hi => absurd (h.holders ▸ hi) List.not_mem_nil,
    fun ha => absurd ha hact, h.valid, h.size, h.cached, fun _ => h.clean⟩, fun hb => absurd hb hbusy,
    fun _ => ⟨q, (hq q).2 rfl, fun q' => (hq q').1⟩, fun he => absurd ((hq .EMPTY).1 he).symm hne, hhash,
    fun ha => absurd ha hact, fun he => absurd (h.error.symm.trans he) (by decide)⟩

theorem BufOk.of_held (hx : (t.buf b).Held h (t.Awaited b)) (hoff : ∀ q, b ∉ t.bfreelist q)
    (hhash : (t.buf b).flags.inval = false → ∀ vp, (t.buf b).vp = some vp → b ∈ t.bufhash (BUFHASH vp (t.buf b).lblkno)) :
    t.BufOk b := by
  have hnfree : (t.buf b).flags.busy ≠ false := by simp [hx.busy]
  refine ⟨⟨fun _ => ⟨h, hx.holders⟩, fun hf => absurd hf hnfree, fun hi => ?_, fun ha => ⟨hx.busy, (hx.active ha).1, (hx.active ha).2.1⟩,
    hx.valid, hx.size, hx.cached, fun hf => absurd hf hnfree⟩, fun _ => hoff, fun hf => absurd hf hnfree,
    fun hq => absurd hq (hoff _), hhash, fun ha => (hx.active ha).2.2.imp_left fun hi : h = .io => hi ▸ hx.holders, hx.error⟩
  rw [hx.holders, List.mem_singleton] at hi
  exact hx.io hi.symm

theorem BufOk.free (hok : s.BufOk b) (hfree : (s.buf b).flags.busy = false) : (s.buf b).holders = [] ∧ (s.buf b).active = false ∧
    ((s.buf b).flags.error = true → (s.buf b).flags.inval = true) := by
  refine ⟨hok.ok.free hfree, ?_, fun he => (hok.error he).resolve_right ?_⟩
  · cases hact : (s.buf b).active with
    | false => rfl
    | true => exact absurd ((hok.ok.active hact).1.symm.trans hfree) (by decide)
  · rintro ⟨p', hp', -⟩
    exact absurd ((hok.ok.free hfree).symm.trans hp') (by simp)

/-- Only flags change that the cache does not rely on. -/
theorem BufOk.flags (hok : s.BufOk b) {f : Flags} (hbuf : t.buf b = { s.buf b with flags := f }) (hlist : t.bfreelist = s.bfreelist)
    (hhash : t.bufhash = s.bufhash) (hw : ∀ p, (s.pc p).Waits b → (t.pc p).Waits b)
    (hf : f.busy = (s.buf b).flags.busy ∧ f.inval = (s.buf b).flags.inval ∧ f.error = (s.buf b).flags.error ∧
      f.nocache = (s.buf b).flags.nocache ∧ f.delwri = (s.buf b).flags.delwri)
    (hasync : Holder.io ∈ (s.buf b).holders → f.async = (s.buf b).flags.async)
    (hdone : (s.buf b).active = true → f.done = (s.buf b).flags.done) : t.BufOk b := by
  obtain ⟨h₁, h₂, h₃, h₄, h₅⟩ := hf
  have hawait : s.Awaited b → t.Awaited b := by
    rintro ⟨p, hp, hwait⟩
    exact ⟨p, by rw [hbuf]; exact hp, hw p hwait⟩
  have hx : (t.buf b).Ok := by
    rw [hbuf]
    exact ⟨fun h => hok.ok.busy (h₁.symm.trans h), fun h => hok.ok.free (h₁.symm.trans h),
      fun h => ⟨(hok.ok.io h).1, (hasync h).trans (hok.ok.io h).2⟩,
      fun h => ⟨h₁.trans (hok.ok.active h).1, (hdone h).trans (hok.ok.active h).2.1, h₅.trans (hok.ok.active h).2.2⟩,
      fun h => hok.ok.valid (h₂.symm.trans h), hok.ok.size, h₄.trans hok.ok.cached,
      fun hb hi => h₅.trans (hok.ok.clean (h₁.symm.trans hb) (h₂.symm.trans hi))⟩
  refine ⟨hx, ?_, ?_, ?_, ?_, ?_, ?_⟩ <;> rw [hbuf]
  · rw [hlist]; exact fun h => hok.held (h₁.symm.trans h)
  · rw [hlist]; exact fun h => hok.listed (h₁.symm.trans h)
  · rw [hlist]; exact fun h => ⟨(hok.empty h).1, h₂.trans (hok.empty h).2⟩
  · rw [hhash]; exact fun h => hok.hash (h₂.symm.trans h)
  · exact fun h => (hok.waits h).imp_right hawait
  · exact fun h => (hok.error (h₃.symm.trans h)).imp h₂.trans hawait

/-- What `brelse` needs of the buffer. -/
structure Releasable (s : Cache P nbuf) (h : Holder P) (b : Fin nbuf) : Prop where
  holders : (s.buf b).holders = [h]
  active : (s.buf b).active = false
  valid : (s.buf b).flags.inval = false → (s.buf b).vp ≠ none
  size : ((s.buf b).addr.getD []).length = (s.buf b).bufsize
  off : ∀ q, b ∉ s.bfreelist q
  hash : (s.buf b).flags.inval = false → ∀ vp, (s.buf b).vp = some vp → b ∈ s.bufhash (BUFHASH vp (s.buf b).lblkno)

theorem Released.cases (hr : Released h b s t) :
    (s.buf b).junk = true ∧
        t.buf b = { s.buf b with vp := none, flags := { inval := true }, holders := (s.buf b).holders.erase h } ∨
      ((s.buf b).flags.inval = false ∧ (s.buf b).flags.error = false) ∧ ∃ age, t.buf b = { s.buf b with
        flags := { (s.buf b).flags with wanted := false, cache := false, nocache := false, busy := false, age := age }
        holders := (s.buf b).holders.erase h } := by
  have hb := hr.buf
  cases hj : (s.buf b).junk with
  | true =>
    rw [Buf.brelse_junk _ hj] at hb
    exact Or.inl ⟨rfl, hb⟩
  | false =>
    obtain ⟨age, he⟩ := Buf.brelse_flags _ hj
    rw [he] at hb
    simp only [Buf.junk, Bool.or_eq_false_iff] at hj
    exact Or.inr ⟨hj.1, age, hb⟩

theorem Releasable.bufOk (hs : Releasable s h b) (hr : Released h b s t) : t.BufOk b := by
  have hq : ∃ q, q ≠ .EMPTY ∧ ∀ q', b ∈ t.bfreelist q' ↔ q' = q :=
    ⟨(s.buf b).queue, (s.buf b).queue_ne, fun q' => (hr.queue q').trans (or_iff_right (hs.off q'))⟩
  have hnone : (s.buf b).holders.erase h = [] := by simp [hs.holders]
  obtain ⟨-, hb⟩ | ⟨⟨hinval, herr⟩, age, hb⟩ := hr.cases
  · refine BufOk.of_free ?_ hq ?_
    · rw [hb]
      exact ⟨rfl, hnone, hs.active, rfl, rfl, fun _ => rfl, by simp, hs.size⟩
    · rw [hb]
      intros
      contradiction
  · refine BufOk.of_free ?_ hq ?_
    · rw [hb]
      exact ⟨rfl, hnone, hs.active, herr, rfl, fun hi => absurd (hi.symm.trans hinval) (by decide), hs.valid, hs.size⟩
    · rw [hb, hr.hash]
      exact hs.hash

theorem Released.bufsize (hr : Released h b s t) : (t.buf b).bufsize = (s.buf b).bufsize := by
  obtain ⟨-, hb⟩ | ⟨-, age, hb⟩ := hr.cases <;> rw [hb]

theorem Released.busy (hr : Released h b s t) : (t.buf b).flags.busy = false := by
  obtain ⟨-, hb⟩ | ⟨-, age, hb⟩ := hr.cases <;> rw [hb]

theorem Released.keeps (hr : Released h b s t) (hk : (s.buf b).Keeps) (ho : (s.buf b).junk = true → (s.buf b).owed = none) :
    (t.buf b).Keeps := by
  obtain ⟨hj, hb⟩ | ⟨-, age, hb⟩ := hr.cases
  · rw [hb]
    exact fun vp n d hd => absurd ((ho hj).symm.trans hd) (by simp)
  · rw [hb]
    exact hk

theorem Released.quiet (hr : Released h b s t) : Quiet s t := by
  refine hr.outside.quiet ?_
  obtain ⟨-, hb⟩ | ⟨-, age, hb⟩ := hr.cases
  · rw [hb]
    intros
    contradiction
  · rw [hb]
    exact fun hi => ⟨hi, rfl, rfl⟩

/-! ## A new header -/

/-- The buffer `b` gets the header `x`, and the accounting knows of its size. -/
structure Edits (s t : Cache P nbuf) (b : Fin nbuf) (x : Buf P) : Prop where
  outside : Outside s t b
  buf : t.buf b = x
  alloc : t.allocbufspace = s.allocbufspace + (x.bufsize - (s.buf b).bufsize)
  total : t.freebufspace + t.allocbufspace = s.freebufspace + s.allocbufspace

namespace Edits
variable {x : Buf P}

theorem modify (hf : f (s.buf b) = x) (hs : x.bufsize = (s.buf b).bufsize) : Edits s (s.modify b f) b x :=
  ⟨Outside.modify _, by simp [Cache.modify, hf], by simp [Cache.modify, hs], rfl⟩

theorem goto (h : Edits s t b x) (pc : Pc nbuf) : Edits s (t.goto p pc) b x :=
  ⟨h.outside.trans (Outside.goto _), h.buf, h.alloc, h.total⟩

theorem wakeup (h : Edits s t b x) (chan : Chan nbuf) : Edits s (t.wakeup chan) b x :=
  ⟨h.outside.trans (Outside.wakeup _), h.buf, h.alloc, h.total⟩

theorem trans {y : Buf P} (h : Edits s t b x) (h' : Edits t u b y) : Edits s u b y := by
  refine ⟨h.outside.trans h'.outside, h'.buf, ?_, h'.total.trans h.total⟩
  rw [h'.alloc, h.alloc, h.buf]
  ring

theorem assign (s : Cache P nbuf) (b : Fin nbuf) (vp : Vnode) (n : Int) :
    Edits s ((s.modify b (·.assign vp n)).binshash b (BUFHASH vp n)) b ((s.buf b).assign vp n) :=
  ⟨(Outside.modify _).trans (Outside.binshash _), by simp [Cache.modify, Cache.binshash],
    by simp [Cache.modify, Cache.binshash, Buf.assign], rfl⟩

theorem released (hr : Released h b s t) : Edits s t b (t.buf b) := by
  refine ⟨hr.outside, rfl, ?_, by rw [hr.alloc, hr.free]⟩
  rw [hr.alloc, hr.bufsize]
  ring

theorem quiet (he : Edits s t b x) (hsame : x.flags.inval = false →
    (s.buf b).flags.inval = false ∧ x.vp = (s.buf b).vp ∧ x.lblkno = (s.buf b).lblkno) : Quiet s t :=
  he.outside.quiet (by rwa [he.buf])

theorem keeping (he : Edits s t b x) (hk : (∀ b, (s.buf b).Keeps) → x.Keeps) : Keeping s t :=
  he.outside.keeping (by rwa [he.buf])

end Edits

namespace Inv

variable (hI : s.Inv space)
include hI

/-- What a process holds and does not wait for: the driver does not have it. -/
theorem mine (hb : (s.buf b).holders = [.proc p]) (hr : ¬(s.pc p).Waits b) :
    (s.buf b).Held (.proc p) False ∧ ∀ q, b ∉ s.bfreelist q := by
  have hok := hI.buf b
  have hnot : ¬s.Awaited b := by
    rintro ⟨p', hp', hw⟩
    obtain rfl : p = p' := by
      rw [hb] at hp'
      simpa using hp'
    exact hr hw
  have hbusy : (s.buf b).flags.busy = true := by
    cases hf : (s.buf b).flags.busy with
    | true => rfl
    | false => exact absurd ((hok.ok.free hf).symm.trans hb) (by simp)
  refine ⟨⟨hbusy, hb, by intros; contradiction, fun ha => ?_, fun he => Or.inl ((hok.error he).resolve_right hnot),
    hok.ok.cached, hok.ok.valid, hok.ok.size⟩, hok.held hbusy⟩
  obtain hio | hw := hok.waits ha
  · exact absurd (hb.symm.trans hio) (by simp)
  · exact absurd hw hnot

/-- A step of the process `p` on the buffer `b`, which no other process has in its call. -/
theorem step_at (ho : Outside s t b) (hpc : ∀ p', p' ≠ p → (s.pc p').Woken (t.pc p'))
    (hfree : ∀ p', p' ≠ p → ¬(s.pc p').Refs b) (hwait : ∀ b', b' ≠ b → (s.pc p).Waits b' → (t.pc p).Waits b')
    (hb : t.BufOk b) (hp : (t.pc p).Ok t.buf p) (hn : ∀ q, (t.bfreelist q).Nodup)
    (ha : t.allocbufspace = s.allocbufspace + ((t.buf b).bufsize - (s.buf b).bufsize))
    (hf : t.freebufspace + t.allocbufspace = s.freebufspace + s.allocbufspace) : t.Inv space := by
  refine hI.of_outside ho (fun p' b' hne hw => ?_) hb (fun p' => ?_) hn ha hf
  · by_cases he : p' = p
    · subst he
      exact hwait b' hne hw
    · exact (hpc p' he).waits.2 hw
  · by_cases he : p' = p
    · exact he ▸ hp
    · exact (hI.pc p').frame (hpc p' he) fun b' hr => ho.buf b' fun hbe => hfree p' he (hbe ▸ hr)

theorem others (hb : (s.buf b).holders = [.proc p]) (p' : P) (hne : p' ≠ p) : ¬(s.pc p').Refs b :=
  hI.not_refs hb (by simpa using hne.symm)

/-- A process does not see the buffers outside its call. -/
theorem unseen (ho : Outside s t b) (hw : (s.pc p).Woken (t.pc p)) (hr : ¬(s.pc p).Refs b) : (t.pc p).Ok t.buf p :=
  (hI.pc p).frame hw fun b' hr' => ho.buf b' fun he => hr (he ▸ hr')

theorem seen (ho : Outside s t b) (hb : (t.buf b).holders = (s.buf b).holders ∧ (t.buf b).vp = (s.buf b).vp ∧
      (t.buf b).flags.inval = (s.buf b).flags.inval ∧ (t.buf b).flags.delwri = (s.buf b).flags.delwri ∧
      ((s.buf b).flags.async = false → (t.buf b).flags.async = false) ∧
      ((s.buf b).flags.cache = true → (t.buf b).flags.cache = true)) (p : P) : (s.pc p).Ok t.buf p := by
  refine (hI.pc p).congr fun b' => ?_
  by_cases he : b' = b
  · subst he
    exact hb
  · rw [ho.buf b' he]
    exact ⟨rfl, rfl, rfl, rfl, id, id⟩

theorem brelse (hb : (s.buf b).holders = [.proc p]) (hr : ¬(s.pc p).Refs b) : Good space s (s.brelse (.proc p) b) := by
  have hrel := brelse_spec (.proc p) b s
  obtain ⟨hheld, hoff⟩ := hI.mine hb (mt Pc.Waits.refs hr)
  have hs : Releasable s (.proc p) b := ⟨hb, hheld.idle, hheld.valid, hheld.size, hoff, (hI.buf b).hash⟩
  refine ⟨hI.step_at (p := p) hrel.outside (fun p' _ => hrel.pc p') (hI.others hb) (fun b' _ => (hrel.pc p).waits.2)
    (hs.bufOk hrel) (hI.unseen hrel.outside (hrel.pc p) hr) (hrel.nodup hoff hI.nodup) ?_ ?_, hrel.quiet,
    hrel.outside.keeping fun hk => ?_⟩
  · rw [hrel.alloc, hrel.bufsize]
    ring
  · rw [hrel.alloc, hrel.free]
  · refine hrel.keeps (hk b) fun hj => ?_
    cases ho : (s.buf b).owed with
    | none => rfl
    | some o =>
      have hinval := (hk b o.1 o.2.1 o.2.2 ho).2.1
      simp only [Buf.junk, hinval, hheld.cached, Bool.or_false, Bool.false_or] at hj
      exact absurd (((hheld.error hj).resolve_right id).symm.trans hinval) (by decide)

theorem held (hh : (s.buf b).holders = [.proc p]) (hw : ¬(s.pc p).Waits b) (he : Edits s t b x)
    (hlist : t.bfreelist = s.bfreelist) (hpc : ∀ p', p' ≠ p → t.pc p' = s.pc p')
    (hwait : ∀ b', b' ≠ b → (s.pc p).Waits b' → (t.pc p).Waits b') (hx : x.Held h (t.Awaited b))
    (hhash : x.flags.inval = false → ∀ vp, x.vp = some vp → b ∈ t.bufhash (BUFHASH vp x.lblkno))
    (hok : (t.pc p).Ok t.buf p) : t.Inv space := by
  obtain rfl := he.buf
  refine hI.step_at (p := p) he.outside (fun p' hp => Or.inl (hpc p' hp)) (hI.others hh) hwait (BufOk.of_held hx ?_ hhash) hok ?_
    he.alloc he.total
  · rw [hlist]
    exact (hI.mine hh hw).2
  · rw [hlist]
    exact hI.nodup

/-- A step of `p` on a buffer that it holds and that does not get valid. -/
theorem edit (hh : (s.buf b).holders = [.proc p]) (hw : ¬(s.pc p).Waits b) (he : Edits s t b x)
    (hlist : t.bfreelist = s.bfreelist) (hpc : ∀ p', p' ≠ p → t.pc p' = s.pc p')
    (hwait : ∀ b', b' ≠ b → (s.pc p).Waits b' → (t.pc p).Waits b') (hx : x.Held h (t.Awaited b))
    (hsame : x.flags.inval = false → t.bufhash = s.bufhash ∧ (s.buf b).flags.inval = false ∧ x.vp = (s.buf b).vp ∧
      x.lblkno = (s.buf b).lblkno) (hok : (t.pc p).Ok t.buf p) (hk : (∀ b, (s.buf b).Keeps) → x.Keeps) :
    Good space s t := by
  refine ⟨hI.held hh hw he hlist hpc hwait hx (fun hi vp hvp => ?_) hok, he.quiet fun hi => (hsame hi).2, he.keeping hk⟩
  obtain ⟨h₁, h₂, h₃, h₄⟩ := hsame hi
  rw [h₁, h₄]
  exact (hI.buf b).hash h₂ vp (h₃.symm.trans hvp)

end Inv

/-! ## Taking a free buffer, and starting a write -/

theorem Good.refl (hI : s.Inv space) : Good space s s := ⟨hI, fun _ h => ⟨h, rfl, rfl⟩, fun h => h⟩

namespace Inv

variable (hI : s.Inv space)
include hI

theorem taken (hfree : (s.buf b).flags.busy = false) (he : Edits s t b x) (hpc : t.pc = s.pc)
    (hlist : t.bfreelist = (s.bremfree b).bfreelist) (hx : x.Held (.proc p) False)
    (hhash : x.flags.inval = false → ∀ vp, x.vp = some vp → b ∈ t.bufhash (BUFHASH vp x.lblkno)) :
    t.Inv space ∧ ¬(t.pc p).Refs b := by
  obtain rfl := he.buf
  have hr : ∀ p', ¬(s.pc p').Refs b := fun p' => hI.not_refs ((hI.buf b).free hfree).1 (by simp)
  have hheld : (t.buf b).Held (.proc p) (t.Awaited b) := { hx with
    active := fun h => absurd (hx.idle.symm.trans h) (by decide)
    error := fun h => (hx.error h).imp_right False.elim }
  refine ⟨hI.step_at (p := p) he.outside (fun p' _ => Or.inl (congrFun hpc p')) (fun p' _ => hr p') (fun b' _ => by rw [hpc]; exact id)
    (BufOk.of_held hheld ?_ hhash) (hI.unseen he.outside (Or.inl (congrFun hpc p)) (hr p)) ?_ he.alloc he.total,
    by rw [hpc]; exact hr p⟩
  · rw [hlist]
    simp [Cache.bremfree]
  · rw [hlist]
    exact fun q => (hI.nodup q).filter _

/-- A free buffer is taken, and only its flags change. -/
theorem take (hfree : (s.buf b).flags.busy = false) (g : Flags → Flags)
    (hg : ∀ f, (g f).busy = true ∧ (g f).inval = f.inval ∧ (g f).error = f.error ∧ (g f).nocache = f.nocache ∧
      (g f).delwri = f.delwri) :
    Good space s ((s.bremfree b).modify b fun x => (x.setFlags g).take (.proc p)) ∧
      (((s.bremfree b).modify b fun x => (x.setFlags g).take (.proc p)).buf b).holders = [.proc p] ∧
      ¬(s.pc p).Refs b := by
  have hok := hI.buf b
  obtain ⟨hbusy, hinval, herr, hnc, hdw⟩ := hg (s.buf b).flags
  obtain ⟨hnone, hidle, hbad⟩ := hok.free hfree
  have he : Edits s ((s.bremfree b).modify b fun x => (x.setFlags g).take (.proc p)) b (((s.buf b).setFlags g).take (.proc p)) :=
    ⟨Outside.bremfree.trans (Outside.modify _), by simp [Cache.modify, Cache.bremfree],
      by simp [Cache.modify, Cache.bremfree, Buf.take, Buf.setFlags], rfl⟩
  have hone : (((s.buf b).setFlags g).take (.proc p)).holders = [.proc p] := by simp [Buf.take, Buf.setFlags, hnone]
  obtain ⟨hinv, hr⟩ := hI.taken (p := p) hfree he rfl rfl ⟨hbusy, hone, by intros; contradiction,
    fun h => absurd (hidle.symm.trans h) (by decide), fun h => Or.inl (hinval.trans (hbad (herr.symm.trans h))),
    hnc.trans hok.ok.cached, fun h => hok.ok.valid (hinval.symm.trans h), hok.ok.size⟩ fun h => hok.hash (hinval.symm.trans h)
  refine ⟨⟨hinv, he.quiet fun h => ⟨hinval.symm.trans h, rfl, rfl⟩, he.keeping fun hk vp n d hd => ?_⟩, he.buf ▸ hone, hr⟩
  obtain ⟨h₁, h₂, h₃⟩ := hk b vp n d hd
  exact ⟨hdw.trans h₁, hinval.trans h₂, h₃⟩

/-- `bawrite` of a buffer that `p` holds. -/
theorem bawrite (hb : (s.buf b).holders = [.proc p]) (hr : ¬(s.pc p).Refs b) :
    ∃ t, s.bawrite p b = .ok t ∧ Good space s t ∧ (∀ p', (s.pc p').Woken (t.pc p')) ∧
      ((s.buf b).flags.inval = false → t.bfreelist = s.bfreelist) := by
  obtain ⟨hheld, -⟩ := hI.mine hb (mt Pc.Waits.refs hr)
  unfold Cache.bawrite
  rw [if_neg (by simp [hheld.busy])]
  by_cases hinval : (s.buf b).flags.inval = true
  · rw [if_pos hinval]
    exact ⟨_, rfl, hI.brelse hb hr, (brelse_spec (.proc p) b s).pc, fun h => absurd (hinval.symm.trans h) (by decide)⟩
  have hvalid : (s.buf b).flags.inval = false := by simpa using hinval
  rw [if_neg hinval, if_neg (hheld.valid hvalid)]
  refine ⟨_, rfl, ?_, fun _ => Pc.Woken.rfl', fun _ => rfl⟩
  obtain ⟨age, he⟩ := (s.buf b).startWrite_eq true
  have hedit : Edits s (s.modify b fun x => ((x.startWrite true).strategy.give (.proc p)).take .io) b { s.buf b with
      flags := { (s.buf b).flags with
        read := false, done := false, error := false, delwri := false, async := true, age := age, dirty := true }
      active := true
      owed := none
      holders := [.io] } := Edits.modify (by simp [he, Buf.give, Buf.take, hb]) rfl
  refine hI.edit (h := .io) hb (mt Pc.Waits.refs hr) hedit rfl (fun _ _ => rfl) (fun _ _ h => h) { hheld with
    holders := rfl
    io := fun _ => ⟨rfl, rfl⟩
    active := fun _ => ⟨rfl, rfl, Or.inl rfl⟩
    error := by intros; contradiction } (fun h => ⟨rfl, h, rfl, rfl⟩) (hI.unseen hedit.outside (Or.inl rfl) hr) fun _ => ?_
  rintro _ _ _ ⟨⟩

/-! ## getnewbuf -/

/-- What `getnewbuf` returns: a buffer that the process holds, without a block. -/
structure New (t : Cache P nbuf) (p : P) (b : Fin nbuf) : Prop where
  holders : (t.buf b).holders = [.proc p]
  inval : (t.buf b).flags.inval = true
  vp : (t.buf b).vp = none
  refs : ¬(t.pc p).Refs b

theorem listed_free (q : BQ) (hb : b ∈ s.bfreelist q) : (s.buf b).flags.busy = false := by
  cases hbusy : (s.buf b).flags.busy with
  | false => rfl
  | true => exact absurd hb ((hI.buf b).held hbusy q)

theorem setWanted : Good space s { s with wanted := true } :=
  ⟨⟨fun b => (hI.buf b).frame rfl (fun _ => Iff.rfl) (fun _ h => h) (fun _ h => h), hI.pc, hI.nodup, hI.alloc, hI.total⟩,
    fun _ h => ⟨h, rfl, rfl⟩, fun h => h⟩

theorem fresh (hfree : (s.buf b).flags.busy = false) (he : Edits s t b x) (hpc : t.pc = s.pc)
    (hlist : t.bfreelist = (s.bremfree b).bfreelist) (hflags : x.flags = { busy := true, inval := true })
    (hvp : x.vp = none) (hh : x.holders = .proc p :: (s.buf b).holders) (hact : x.active = (s.buf b).active)
    (hs : (x.addr.getD []).length = x.bufsize) (hk : (s.buf b).Keeps → ∀ o, x.owed ≠ some o) :
    Good space s t ∧ New t p b := by
  obtain ⟨hnone, hidle, -⟩ := (hI.buf b).free hfree
  have hinval : x.flags.inval = true := by rw [hflags]
  have hone : x.holders = [.proc p] := by rw [hh, hnone]
  have hbad : x.flags.inval ≠ false := by simp [hinval]
  obtain ⟨hinv, hr⟩ := hI.taken (p := p) hfree he hpc hlist ⟨by rw [hflags], hone, by intros; contradiction,
    fun h => absurd ((hact.trans hidle).symm.trans h) (by decide), fun _ => Or.inl hinval, by rw [hflags],
    fun h => absurd h hbad, hs⟩ fun h => absurd h hbad
  obtain rfl := he.buf
  exact ⟨⟨hinv, he.quiet fun h => absurd h hbad, he.keeping fun hks vp n d ho => absurd ho (hk (hks b) _)⟩, hone, hinval, hvp, hr⟩

theorem recycle (hfree : (s.buf b).flags.busy = false) (hd : (s.buf b).flags.delwri = false) :
    Good space s (((s.bremfree b).bremhash b).modify b fun x => x.recycle.fillin.take (.proc p)) ∧
    New (((s.bremfree b).bremhash b).modify b fun x => x.recycle.fillin.take (.proc p)) p b := by
  refine hI.fresh (x := (s.buf b).recycle.fillin.take (.proc p)) hfree
    ⟨Outside.bremfree.trans (Outside.bremhash.trans (Outside.modify _)), ?_, ?_, rfl⟩ rfl rfl rfl rfl rfl rfl (hI.buf b).ok.size ?_
  · simp [Cache.modify, Cache.bremfree, Cache.bremhash]
  · simp [Buf.take, Buf.recycle, Buf.fillin, Cache.modify, Cache.bremfree, Cache.bremhash]
  · exact fun hk o ho => absurd ((hk o.1 o.2.1 o.2.2 ho).1.symm.trans hd) (by decide)

/-- An empty header gets storage. -/
theorem constitute (sz : Nat) (contents : Nat → UInt8) (hq : b ∈ s.bfreelist .EMPTY) :
    Good space s ((({ s with freebufspace := s.freebufspace - sz, allocbufspace := s.allocbufspace + sz }.bremfree b).bremhash
        b).modify b fun x => (x.constitute sz contents).fillin.take (.proc p)) ∧
      New ((({ s with freebufspace := s.freebufspace - sz, allocbufspace := s.allocbufspace + sz }.bremfree b).bremhash
        b).modify b fun x => (x.constitute sz contents).fillin.take (.proc p)) p b := by
  have hok := hI.buf b
  obtain ⟨haddr, hbad⟩ := hok.empty hq
  have hzero : (s.buf b).bufsize = 0 := by
    rw [← hok.ok.size, haddr]
    rfl
  have hstart : Outside s { s with freebufspace := s.freebufspace - sz, allocbufspace := s.allocbufspace + sz } b :=
    ⟨fun _ _ => rfl, fun _ _ _ => Iff.rfl, fun _ _ _ h => h⟩
  refine hI.fresh (x := ((s.buf b).constitute sz contents).fillin.take (.proc p)) (hI.listed_free .EMPTY hq)
    ⟨hstart.trans (Outside.bremfree.trans (Outside.bremhash.trans (Outside.modify _))), ?_, ?_, ?_⟩ rfl rfl rfl rfl rfl rfl ?_ ?_
  · simp [Cache.modify, Cache.bremfree, Cache.bremhash]
  · simp [Buf.take, Buf.constitute, Buf.fillin, Cache.modify, Cache.bremfree, Cache.bremhash, hzero]
  · simp [Cache.modify, Cache.bremfree, Cache.bremhash]
  · simp [Buf.take, Buf.fillin, Buf.constitute, memory]
  · exact fun hk o ho => absurd ((hk o.1 o.2.1 o.2.2 ho).2.1.symm.trans hbad) (by decide)

/-- `getnewbuf` ends, with a new buffer or after a sleep. -/
theorem getnewbuf (sz : Nat) (rooms : List Bool) (contents : Nat → UInt8) :
    ∃ t r, s.getnewbuf p sz rooms contents = .ok (t, r) ∧ Good space s t ∧ (∀ p', (s.pc p').Woken (t.pc p')) ∧
      ∀ b, r = some b → New t p b := by
  have hround : ∀ t : Cache P nbuf × List Bool, (Good space s t.1 ∧ ∀ p', (s.pc p').Woken (t.1.pc p')) →
      (getnewbufRound p sz contents t).elim
        (fun t' => (Good space s t'.1 ∧ ∀ p', (s.pc p').Woken (t'.1.pc p')) ∧
          (t'.1.bfreelist .AGE ++ t'.1.bfreelist .LRU).length < (t.1.bfreelist .AGE ++ t.1.bfreelist .LRU).length)
        fun r => ∃ t r', r = .ok (t, r') ∧ Good space s t ∧ (∀ p', (s.pc p').Woken (t.pc p')) ∧ ∀ b, r' = some b → New t p b := by
    rintro ⟨u, rooms⟩ ⟨hg, hw⟩
    have hu := hg.inv
    unfold getnewbufRound
    simp only at hg hw hu ⊢
    cases hc : u.constituted sz rooms with
    | some b =>
      have hq : b ∈ u.bfreelist .EMPTY := by
        unfold constituted at hc
        split at hc
        · exact List.mem_of_head? hc
        · cases hc
      obtain ⟨hgood, hnew⟩ := hu.constitute (p := p) sz contents hq
      exact ⟨_, _, rfl, hg.trans hgood, hw, fun b' hb' => Option.some.inj hb' ▸ hnew⟩
    | none =>
      simp only
      cases hl : (u.bfreelist .AGE ++ u.bfreelist .LRU).head? with
      | none => exact ⟨_, _, rfl, hg.trans hu.setWanted, hw, (by intros; contradiction)⟩
      | some b =>
        simp only
        have hmem : b ∈ u.bfreelist .AGE ++ u.bfreelist .LRU := List.mem_of_head? hl
        have hfree : (u.buf b).flags.busy = false := (List.mem_append.1 hmem).elim (hu.listed_free _) (hu.listed_free _)
        by_cases hd : ((u.bremfree b).buf b).flags.delwri = true
        · rw [if_pos hd]
          obtain ⟨hgood, hh, hr⟩ := hu.take (p := p) hfree ({ · with busy := true }) fun f => ⟨rfl, rfl, rfl, rfl, rfl⟩
          obtain ⟨t, ht, hgt, hwt, hlist⟩ := hgood.inv.bawrite hh hr
          rw [ht]
          refine ⟨⟨(hg.trans hgood).trans hgt, fun p' => (hw p').trans (hwt p')⟩, ?_⟩
          have hvalid : (u.buf b).flags.inval = false := by
            cases hi : (u.buf b).flags.inval with
            | false => rfl
            | true => exact absurd (((hu.buf b).ok.clean hfree hi).symm.trans hd) (by decide)
          rw [hlist (by simpa [Cache.modify, Buf.take, Buf.setFlags, Cache.bremfree] using hvalid)]
          simp only [Cache.modify, Cache.bremfree]
          rw [← List.filter_append]
          exact List.length_filter_lt_length_iff_exists.2 ⟨b, hmem, by simp⟩
        · rw [if_neg hd]
          obtain ⟨hgood, hnew⟩ := hu.recycle (p := p) hfree (by simpa [Cache.bremfree] using hd)
          exact ⟨_, _, rfl, hg.trans hgood, hw, fun b' hb' => Option.some.inj hb' ▸ hnew⟩
  have hlen : (s.bfreelist .AGE ++ s.bfreelist .LRU).length < nbuf + 1 := by
    have hnd : (s.bfreelist .AGE ++ s.bfreelist .LRU).Nodup := by
      refine List.nodup_append.2 ⟨hI.nodup _, hI.nodup _, fun a ha a' ha' he => ?_⟩
      subst he
      obtain ⟨q, -, hone⟩ := (hI.buf a).listed (hI.listed_free _ ha)
      exact absurd ((hone _ ha).trans (hone _ ha').symm) (by decide)
    have := hnd.length_le_card
    rw [Fintype.card_fin] at this
    omega
  obtain ⟨r, hr, t, r', rfl, h⟩ := loop_total hround ⟨Good.refl hI, fun _ => Pc.Woken.rfl'⟩ (show
    (fun t : Cache P nbuf × List Bool => (t.1.bfreelist .AGE ++ t.1.bfreelist .LRU).length) (s, rooms) < nbuf + 1 from hlen)
  exact ⟨t, r', by rw [Cache.getnewbuf, hr]; rfl, h⟩

/-! ## Going on in a call -/

theorem goto (pc : Pc nbuf) (hok : pc.Ok s.buf p) (hw : ∀ b, (s.pc p).Waits b → pc.Waits b) : Good space s (s.goto p pc) := by
  have hpc : ∀ p', p' ≠ p → (s.goto p pc).pc p' = s.pc p' := fun p' hp => Function.update_of_ne hp _ _
  have hself : (s.goto p pc).pc p = pc := Function.update_self _ _ _
  refine ⟨⟨fun b => ?_, fun p' => ?_, hI.nodup, hI.alloc, hI.total⟩, fun _ h => ⟨h, rfl, rfl⟩, fun h => h⟩
  · refine (hI.buf b).frame rfl (fun _ => Iff.rfl) (fun _ h => h) fun p' hw' => ?_
    by_cases he : p' = p
    · subst he
      rw [hself]
      exact hw b hw'
    · rwa [hpc p' he]
  · by_cases he : p' = p
    · subst he
      rw [hself]
      exact hok
    · rw [hpc p' he]
      exact hI.pc p'

/-- The driver gets a buffer that the process waits for from then on. -/
theorem started (hh : (s.buf b).holders = [.proc p]) (hw : ∀ b', ¬(s.pc p).Waits b') (pc : Pc nbuf) (hpc : pc.Waits b)
    {flags : Flags} {owed : Option (Vnode × Int × List UInt8)}
    (hf : f (s.buf b) = { s.buf b with flags := flags, active := true, owed := owed })
    (hbusy : flags.busy = (s.buf b).flags.busy) (hdone : flags.done = false) (herr : flags.error = false)
    (hdw : flags.delwri = false) (hinval : flags.inval = (s.buf b).flags.inval)
    (hnc : flags.nocache = (s.buf b).flags.nocache)
    (ho : owed = none ∨ (s.buf b).flags.delwri = false ∧ owed = (s.buf b).owed)
    (hok : pc.Ok ((s.modify b f).goto p pc).buf p) : Good space s ((s.modify b f).goto p pc) := by
  obtain ⟨hheld, -⟩ := hI.mine hh (hw b)
  have he : Edits s ((s.modify b f).goto p pc) b { s.buf b with flags := flags, active := true, owed := owed } :=
    (Edits.modify hf rfl).goto pc
  have hself : ((s.modify b f).goto p pc).pc p = pc := Function.update_self _ _ _
  have hawait : ((s.modify b f).goto p pc).Awaited b := ⟨p, by rw [he.buf]; exact hh, by rw [hself]; exact hpc⟩
  refine hI.edit hh (hw b) he rfl (fun p' hp => Function.update_of_ne hp _ _) (fun b' _ h => absurd h (hw b'))
    ⟨hbusy.trans hheld.busy, hh, by intros; contradiction, fun _ => ⟨hdone, hdw, Or.inr hawait⟩,
      fun h => absurd (herr.symm.trans h) (by decide), hnc.trans hheld.cached, fun h => hheld.valid (hinval.symm.trans h),
      hheld.size⟩ (fun h => ⟨rfl, hinval.symm.trans h, rfl, rfl⟩) (by rwa [hself]) fun hk vp n d hd => ?_
  obtain ho | ⟨hd', ho⟩ := ho
  · exact absurd (ho.symm.trans hd) (by simp)
  · exact absurd ((hk b vp n d (ho.symm.trans hd)).1.symm.trans hd') (by decide)

/-- `getblk` returns a buffer to its caller. -/
theorem returned (hh : (s.buf b).holders = [.proc p]) (hn : c.held = none) (hw : ∀ b', ¬(s.pc p).Waits b')
    (hinval : (s.buf b).flags.inval = false)
    (hread : s.needsRead b = true → (s.buf b).flags.delwri = false ∧ (s.buf b).flags.async = false) :
    Good space s (s.returned p b c) := by
  have huser : Good space s (s.goto p .user) := hI.goto .user trivial fun b' h => absurd h (hw b')
  have hflags : (s.buf b).startRead.strategy = { s.buf b with
      flags := { (s.buf b).flags with read := true, done := false, error := false, inval := false }
      active := true
      owed := (s.buf b).owed } := rfl
  have hbuf : ∀ pc : Pc nbuf, ((s.modify b (·.startRead.strategy)).goto p pc).buf b = (s.buf b).startRead.strategy := by
    simp [Cache.goto, Cache.modify]
  cases c with
  | getblk vp n size => exact huser
  | geteblk size => exact huser
  | ahead vp n size bp needwait => cases hn
  | bread vp n size =>
    simp only [Cache.returned]
    split
    · next hneed =>
      obtain ⟨hdw, has⟩ := hread hneed
      refine hI.started hh hw (.biowait b false) (Or.inl ⟨false, rfl⟩) hflags rfl rfl rfl hdw hinval.symm rfl
        (Or.inr ⟨hdw, rfl⟩) ?_
      simp only [Pc.Ok, hbuf]
      exact ⟨hh, hdw, has⟩
    · exact huser
  | breada vp n size rablkno =>
    simp only [Cache.returned]
    split
    · next hneed =>
      obtain ⟨hdw, has⟩ := hread hneed
      refine hI.started hh hw (.run (.ahead vp rablkno size b true)) (Or.inr rfl) hflags rfl rfl rfl hdw hinval.symm rfl
        (Or.inr ⟨hdw, rfl⟩) ?_
      intro b' needwait he
      obtain ⟨rfl, rfl⟩ := Prod.mk.inj (Option.some.inj he)
      rw [hbuf]
      exact ⟨hh, rfl, fun _ => ⟨hdw, has⟩⟩
    · refine hI.goto _ (fun b' needwait he => ?_) fun b' h => absurd h (hw b')
      obtain ⟨rfl, rfl⟩ := Prod.mk.inj (Option.some.inj he)
      exact ⟨hh, hinval, (by intros; contradiction)⟩

/-- A change of flags that the cache does not rely on. -/
theorem touch (g : Flags → Flags) (hg : ∀ f, (g f).busy = f.busy ∧ (g f).inval = f.inval ∧ (g f).error = f.error ∧
      (g f).nocache = f.nocache ∧ (g f).delwri = f.delwri ∧ (g f).async = f.async ∧ (g f).done = f.done ∧
      (f.cache = true → (g f).cache = true)) : Good space s (s.modify b (·.setFlags g)) := by
  obtain ⟨h₁, h₂, h₃, h₄, h₅, h₆, h₇, h₈⟩ := hg (s.buf b).flags
  have he : Edits s (s.modify b (·.setFlags g)) b ((s.buf b).setFlags g) := Edits.modify rfl rfl
  have hokb := (hI.buf b).flags he.buf rfl rfl (fun _ h => h) ⟨h₁, h₂, h₃, h₄, h₅⟩ (fun _ => h₆) fun _ => h₇
  refine ⟨hI.of_outside he.outside (fun _ _ _ h => h) hokb (hI.seen he.outside ?_) hI.nodup (by rw [he.buf]; exact he.alloc)
    he.total, he.quiet fun h => ⟨h₂.symm.trans h, rfl, rfl⟩, he.keeping fun hk vp n d hd => ?_⟩
  · rw [he.buf]
    exact ⟨rfl, rfl, h₂, h₅, h₆.trans, h₈⟩
  · obtain ⟨g₁, g₂, g₃⟩ := hk b vp n d hd
    exact ⟨h₅.trans g₁, h₂.trans g₂, g₃⟩

/-- `getblk` finds the block. -/
theorem hit (hn : c.held = none) (hw : ∀ b', ¬(s.pc p).Waits b') (hinval : (s.buf b).flags.inval = false) :
    Good space s (s.hit p b c) := by
  have hcall : ∀ t : Cache P nbuf, c.Ok t.buf p := fun t b' needwait he => absurd (hn.symm.trans he) (by simp)
  unfold Cache.hit
  by_cases hbusy : (s.buf b).flags.busy = true
  · rw [if_pos hbusy]
    have ht := hI.touch (b := b) ({ · with age := false, wanted := true, cache := true })
      fun f => ⟨rfl, rfl, rfl, rfl, rfl, rfl, rfl, fun _ => rfl⟩
    exact ht.trans (ht.inv.goto _ (hcall _) fun b' h => absurd h (hw b'))
  · rw [if_neg hbusy]
    simp only
    obtain ⟨ht, hh, -⟩ := hI.take (p := p) (b := b) (by simpa using hbusy) ({ · with age := false, busy := true, cache := true })
      fun f => ⟨rfl, rfl, rfl, rfl, rfl⟩
    have hflags : (((s.bremfree b).modify b fun x =>
        (x.setFlags ({ · with age := false, busy := true, cache := true })).take (.proc p)).buf b).flags =
        { (s.buf b).flags with age := false, busy := true, cache := true } := by
      simp [Cache.modify, Cache.bremfree, Buf.take, Buf.setFlags]
    have hw' : ∀ b', ¬(((s.bremfree b).modify b fun x =>
        (x.setFlags ({ · with age := false, busy := true, cache := true })).take (.proc p)).pc p).Waits b' := hw
    generalize (s.bremfree b).modify b (fun x =>
      (x.setFlags ({ · with age := false, busy := true, cache := true })).take (.proc p)) = t at *
    split
    · exact ht.trans (ht.inv.goto _ ⟨hn, hh, by rw [hflags], by rw [hflags]; exact hinval⟩ fun b' h => absurd h (hw' b'))
    · refine ht.trans (ht.inv.returned hh hn hw' (by rw [hflags]; exact hinval) fun hneed => ?_)
      simp [needsRead, hflags, hinval] at hneed

theorem aheadEnd (bp : Fin nbuf) (needwait : Bool) (hw : ∀ b', (s.pc p).Waits b' → b' = bp ∧ needwait = true)
    (hok : needwait = true → (s.buf bp).holders = [.proc p] ∧ (s.buf bp).flags.delwri = false ∧ (s.buf bp).flags.async = false) :
    Good space s (s.aheadEnd p bp needwait) := by
  unfold Cache.aheadEnd
  cases needwait with
  | true =>
    refine hI.goto (.biowait bp false) (hok rfl) fun b' h => ?_
    rw [(hw b' h).1]
    exact Or.inl ⟨false, rfl⟩
  | false => exact hI.goto (.user) trivial fun b' h => absurd (hw b' h).2 (by decide)

/-- `breada` finds the block ahead. -/
theorem aheadHit {rabp bp : Fin nbuf} {needwait : Bool} {vp : Vnode} {n : Int} {size : Nat}
    (hpc : s.pc p = .run (.ahead vp n size bp needwait)) : Good space s (s.aheadHit p rabp bp needwait) := by
  unfold Cache.aheadHit
  simp only
  have hend : ∀ t : Cache P nbuf, Good space s t → t.pc p = .run (.ahead vp n size bp needwait) →
      Good space s (t.aheadEnd p bp needwait) := by
    intro t ht hpt
    have hok := ht.inv.pc p
    rw [hpt] at hok
    obtain ⟨h₁, -, h₃⟩ := hok bp needwait rfl
    refine ht.trans (ht.inv.aheadEnd bp needwait (fun b' h => ?_) fun hneed => ⟨h₁, h₃ hneed⟩)
    rw [hpt] at h
    obtain ⟨_, h⟩ | h := h
    · cases h
    · obtain ⟨rfl, rfl⟩ := Prod.mk.inj (Option.some.inj h)
      exact ⟨rfl, rfl⟩
  refine hend _ ?_ ?_
  · split
    · split
      · next hfree =>
        obtain ⟨ht, hh, hr⟩ := hI.take (p := p) (b := rabp) (by simpa using hfree) ({ · with busy := true })
          fun f => ⟨rfl, rfl, rfl, rfl, rfl⟩
        exact ht.trans (ht.inv.brelse hh hr)
      · exact hI.touch _ fun f => ⟨rfl, rfl, rfl, rfl, rfl, rfl, rfl, id⟩
    · exact Good.refl hI
  · split
    · split
      · refine ((brelse_spec (.proc p) rabp _).pc p).eq_run ?_
        exact hpc
      · exact hpc
    · exact hpc

end Inv

/-! ## New buffers -/

/-- What a call does with its new buffer: it hashes it for its block. -/
structure Fills (space : Int) (s t : Cache P nbuf) (b : Fin nbuf) (c : Call nbuf) : Prop where
  inv : t.Inv space
  keeping : Keeping s t
  others : ∀ b', b' ≠ b → t.buf b' = s.buf b'
  block : ∀ k, c.block = some k → (t.buf b).flags.inval = false ∧ (t.buf b).vp = some k.1 ∧ (t.buf b).lblkno = k.2
  none : c.block = none → (t.buf b).flags.inval = true

/-- The block is hashed once more only where it has been hashed since. -/
theorem Fills.unique (hf : Fills space s t b c) (hu : Unique s) (hno : ∀ k, c.block = some k → ¬s.Cached k) :
    Unique t := by
  have hnew : ∀ b', b' ≠ b → (t.buf b').flags.inval = false → (t.buf b).flags.inval = false → (t.buf b').vp = (t.buf b).vp →
      (t.buf b').lblkno = (t.buf b).lblkno → False := by
    intro b' hne hb' hb hvp hn
    cases hk : c.block with
    | none => exact absurd ((hf.none hk).symm.trans hb) (by decide)
    | some k =>
      obtain ⟨-, h₂, h₃⟩ := hf.block k hk
      refine hno k hk ⟨b', ?_, ?_, ?_⟩
      · rw [← hf.others b' hne]; exact hb'
      · rw [← hf.others b' hne]; exact hvp.trans h₂
      · rw [← hf.others b' hne]; exact hn.trans h₃
  intro b₁ b₂ h₁ h₂ hvp hn
  by_cases e₁ : b₁ = b
  · by_cases e₂ : b₂ = b
    · rw [e₁, e₂]
    · subst e₁
      exact (hnew b₂ e₂ h₂ h₁ hvp.symm hn.symm).elim
  · by_cases e₂ : b₂ = b
    · subst e₂
      exact (hnew b₁ e₁ h₁ h₂ hvp hn).elim
    · rw [hf.others b₁ e₁, hf.others b₂ e₂] at *
      exact hu b₁ b₂ h₁ h₂ hvp hn

theorem Fills.not_unique (hf : Fills space s t b c) (hb : (s.buf b).flags.inval = true) (hk : c.block = some k)
    (hc : s.Cached k) : ¬Unique t := by
  obtain ⟨b', hb', hvp, hn⟩ := hc
  have hne : b' ≠ b := by
    rintro rfl
    exact absurd (hb.symm.trans hb') (by decide)
  obtain ⟨h₁, h₂, h₃⟩ := hf.block k hk
  intro hu
  refine hne (hu b' b ?_ h₁ ?_ ?_)
  · rw [hf.others b' hne]; exact hb'
  · rw [hf.others b' hne]; exact hvp.trans h₂.symm
  · rw [hf.others b' hne]; exact hn.trans h₃.symm

section Goto
variable (pc pc' : Pc nbuf)

theorem goto_goto : (s.goto p pc).goto p pc' = s.goto p pc' := by simp [Cache.goto]

theorem goto_buf : (s.goto p pc).buf = s.buf := rfl

theorem goto_modify (f : Buf P → Buf P) : (s.goto p pc).modify b f = (s.modify b f).goto p pc := rfl

theorem goto_binshash (i : Nat) : (s.goto p pc).binshash b i = (s.binshash b i).goto p pc := rfl

theorem goto_needsRead : (s.goto p pc).needsRead b = s.needsRead b := rfl

theorem goto_returned (c : Call nbuf) : (s.goto p pc).returned p b c = s.returned p b c := by
  cases c <;> simp only [Cache.returned, goto_needsRead, goto_modify, goto_goto]

theorem goto_filled (c : Call nbuf) : (s.goto p pc).filled p b c = s.filled p b c := by
  cases c <;> simp only [Cache.filled, goto_buf, goto_modify, goto_binshash, goto_returned, Cache.aheadEnd, goto_goto]

/-- `getblk` returns the buffer for the same block. -/
theorem returned_block (c : Call nbuf) : (∀ b', b' ≠ b → (s.returned p b c).buf b' = s.buf b') ∧
    ((s.buf b).flags.inval = false → ((s.returned p b c).buf b).flags.inval = false) ∧
      ((s.returned p b c).buf b).vp = (s.buf b).vp ∧ ((s.returned p b c).buf b).lblkno = (s.buf b).lblkno := by
  have hread : ∀ pc : Pc nbuf, (∀ b', b' ≠ b → ((s.modify b (·.startRead.strategy)).goto p pc).buf b' = s.buf b') ∧
      ((s.buf b).flags.inval = false → (((s.modify b (·.startRead.strategy)).goto p pc).buf b).flags.inval = false) ∧
        (((s.modify b (·.startRead.strategy)).goto p pc).buf b).vp = (s.buf b).vp ∧
          (((s.modify b (·.startRead.strategy)).goto p pc).buf b).lblkno = (s.buf b).lblkno := by
    intro pc
    refine ⟨fun b' hb => Function.update_of_ne hb _ _, fun _ => ?_, ?_, ?_⟩ <;>
      simp [Cache.goto, Cache.modify, Buf.startRead, Buf.strategy, Buf.setFlags]
  cases c with
  | bread vp n size =>
    simp only [Cache.returned]
    split
    · exact hread _
    · exact ⟨fun _ _ => rfl, id, rfl, rfl⟩
  | breada vp n size rablkno =>
    simp only [Cache.returned]
    split
    · exact hread _
    · exact ⟨fun _ _ => rfl, id, rfl, rfl⟩
  | _ => exact ⟨fun _ _ => rfl, id, rfl, rfl⟩

end Goto

namespace Inv

variable (hI : s.Inv space)
include hI

theorem assigned (hb : New s p b) (vp : Vnode) (n : Int) :
    ((s.modify b (·.assign vp n)).binshash b (BUFHASH vp n)).Inv space ∧
      Keeping s ((s.modify b (·.assign vp n)).binshash b (BUFHASH vp n)) := by
  have hw := mt Pc.Waits.refs hb.refs
  obtain ⟨hheld, -⟩ := hI.mine hb.holders hw
  have he := Edits.assign s b vp n
  refine ⟨hI.held (h := .proc p) hb.holders hw he rfl (fun _ _ => rfl) (fun _ _ h => h) ⟨rfl, hb.holders, by intros; contradiction,
    fun h => absurd (hheld.idle.symm.trans h) (by decide), by intros; contradiction, rfl, fun _ => by simp [Buf.assign],
    hheld.size⟩ (fun _ vp' hvp => ?_) (hI.unseen he.outside (Or.inl rfl) hb.refs),
    he.keeping fun hk vp' n' d hd => absurd ((hk b vp' n' d hd).2.1.symm.trans hb.inval) (by decide)⟩
  obtain rfl := Option.some.inj hvp
  simp [Cache.binshash, Buf.assign]

theorem readAhead (hh : (s.buf b).holders = [.proc p]) (hr : ¬(s.pc p).Refs b) (hf : (s.buf b).flags = { busy := true }) :
    Good space s (s.modify b fun x =>
      ((x.setFlags ({ · with read := true, async := true, age := true })).strategy.give (.proc p)).take .io) := by
  obtain ⟨hheld, -⟩ := hI.mine hh (mt Pc.Waits.refs hr)
  have hinval : (s.buf b).flags.inval = false := by rw [hf]
  have he : Edits s (s.modify b fun x =>
      ((x.setFlags ({ · with read := true, async := true, age := true })).strategy.give (.proc p)).take .io) b
      { s.buf b with flags := { busy := true, read := true, async := true, age := true }, active := true, holders := [.io] } :=
    Edits.modify (by simp [Buf.setFlags, Buf.strategy, Buf.give, Buf.take, hf, hh]) rfl
  exact hI.edit (h := .io) hh (mt Pc.Waits.refs hr) he rfl (fun _ _ => rfl) (fun _ _ h => h) ⟨rfl, rfl, fun _ => ⟨rfl, rfl⟩,
    fun _ => ⟨rfl, rfl, Or.inl rfl⟩, by intros; contradiction, rfl, fun _ => hheld.valid hinval, hheld.size⟩
    (fun _ => ⟨rfl, hinval, rfl, rfl⟩) (hI.unseen he.outside (Or.inl rfl) hr)
    fun hk vp n d hd => absurd ((hk b vp n d hd).1) (by simp [hf])

/-- What a call does with a new buffer. -/
theorem filled (hpc : s.pc p = .run c) (hb : New s p b) : ∃ t, s.filled p b c = .ok t ∧ Fills space s t b c := by
  have hcall : c.Ok s.buf p := by
    have := hI.pc p
    rwa [hpc] at this
  have hwait : ∀ b', (s.pc p).Waits b' → c.held = some (b', true) := by
    intro b' h
    rw [hpc] at h
    exact h.resolve_left (by simp)
  -- a call that returns the buffer
  have hback : ∀ vp n, c.held = none → c.block = some (vp, n) →
      Fills space s (((s.modify b (·.assign vp n)).binshash b (BUFHASH vp n)).returned p b c) b c := by
    intro vp n hn hblock
    obtain ⟨hu, hkeep⟩ := hI.assigned hb vp n
    obtain ⟨hout, hbuf, -, -⟩ := Edits.assign s b vp n
    have hwait' : ∀ b', ¬(((s.modify b (·.assign vp n)).binshash b (BUFHASH vp n)).pc p).Waits b' := by
      intro b' h
      exact absurd (hn.symm.trans (hwait b' h)) (by simp)
    generalize (s.modify b (·.assign vp n)).binshash b (BUFHASH vp n) = u at *
    have hg := hu.returned (b := b) (c := c) (by rw [hbuf]; exact hb.holders) hn hwait' (by rw [hbuf]; rfl)
      (fun _ => by rw [hbuf]; exact ⟨rfl, rfl⟩)
    obtain ⟨hothers, hvalid, hvp, hn'⟩ := returned_block (s := u) (p := p) (b := b) c
    refine ⟨hg.inv, fun hk => hg.keeping (hkeep hk), fun b' hne => (hothers b' hne).trans (hout.buf b' hne), fun k hk => ?_, fun hk => ?_⟩
    · obtain rfl := Option.some.inj (hblock.symm.trans hk)
      rw [hbuf] at hvalid hvp hn'
      exact ⟨hvalid rfl, hvp, hn'⟩
    · exact absurd (hblock.symm.trans hk) (by simp)
  cases c with
  | geteblk size =>
    have hg := hI.goto (p := p) (.user) trivial fun b' h => absurd (hwait b' h) (by simp [Call.held])
    exact ⟨_, rfl, hg.inv, hg.keeping, fun _ _ => rfl, (by intros; contradiction), fun _ => hb.inval⟩
  | getblk vp n size =>
    simp only [Cache.filled]
    rw [if_neg (by simpa using hb.vp)]
    exact ⟨_, rfl, hback vp n rfl rfl⟩
  | bread vp n size =>
    simp only [Cache.filled]
    rw [if_neg (by simpa using hb.vp)]
    exact ⟨_, rfl, hback vp n rfl rfl⟩
  | breada vp n size rablkno =>
    simp only [Cache.filled]
    rw [if_neg (by simpa using hb.vp)]
    exact ⟨_, rfl, hback vp n rfl rfl⟩
  | ahead vp n size bp needwait =>
    simp only [Cache.filled]
    rw [if_neg (by simpa using hb.vp)]
    have hne : bp ≠ b := by
      rintro rfl
      exact absurd ((hcall bp needwait rfl).2.1.symm.trans hb.inval) (by decide)
    obtain ⟨hu, hkeep⟩ := hI.assigned hb vp n
    have hsplit : (s.modify b fun x => (((x.assign vp n).setFlags ({ · with read := true, async := true, age := true })).strategy.give
          (.proc p)).take .io).binshash b (BUFHASH vp n) =
        ((s.modify b (·.assign vp n)).binshash b (BUFHASH vp n)).modify b fun x =>
          ((x.setFlags ({ · with read := true, async := true, age := true })).strategy.give (.proc p)).take .io := by
      simp [Cache.modify, Cache.binshash]
    rw [hsplit]
    obtain ⟨hout, hbuf, -, -⟩ := Edits.assign s b vp n
    have hpcu : ((s.modify b (·.assign vp n)).binshash b (BUFHASH vp n)).pc = s.pc := rfl
    generalize (s.modify b (·.assign vp n)).binshash b (BUFHASH vp n) = u at *
    have hg := hu.readAhead (p := p) (b := b) (by rw [hbuf]; exact hb.holders) (by rw [hpcu]; exact hb.refs) (by rw [hbuf]; rfl)
    have hbp : ∀ f : Buf P → Buf P, (u.modify b f).buf bp = s.buf bp := fun f =>
      (Function.update_of_ne hne _ _).trans (hout.buf bp hne)
    have hend := hg.inv.aheadEnd (p := p) bp needwait (fun b' h => ?_) fun hneed => ?_
    · refine ⟨_, rfl, hend.inv, fun hk => hend.keeping (hg.keeping (hkeep hk)), fun b' hne' => ?_, fun k hk => ?_, (by intros; contradiction)⟩
      · exact (Function.update_of_ne hne' _ _).trans (hout.buf b' hne')
      · obtain rfl := Option.some.inj hk
        simp [Cache.aheadEnd, Cache.goto, Cache.modify, Buf.take, Buf.give, Buf.strategy, Buf.setFlags, hbuf, Buf.assign]
    · have hw := hwait b' (by rw [← hpcu]; exact h)
      obtain ⟨rfl, rfl⟩ := Prod.mk.inj (Option.some.inj hw)
      exact ⟨rfl, rfl⟩
    · rw [hbp]
      obtain ⟨h₁, -, h₃⟩ := hcall bp needwait rfl
      exact ⟨h₁, h₃ hneed⟩

theorem incore_none (h : s.incore k.1 k.2 = none) : ¬s.Cached k := by
  rintro ⟨b, hb, hvp, hn⟩
  have hmem : b ∈ s.bufhash (BUFHASH k.1 k.2) := hn ▸ (hI.buf b).hash hb k.1 hvp
  exact absurd (List.find?_eq_none.1 h b hmem) (by simp [hb, hvp, hn])

omit hI in
theorem incore_some {vp : Vnode} {n : Int} (h : s.incore vp n = some b) : (s.buf b).flags.inval = false := by
  have := List.find?_some h
  simp only [Bool.and_eq_true, Bool.not_eq_true'] at this
  exact this.2

/-- `getblk` and `breada` do not find the block. -/
theorem miss {rooms : List Bool} (hpc : s.pc p = .run c ∨ s.pc p = .user ∧ Entry c)
    (hno : ∀ k, c.block = some k → ¬s.Cached k) :
    ∃ t, s.miss p c rooms contents = .ok t ∧ t.Inv space ∧ Keeping s t ∧ (Unique s → Unique t) := by
  obtain ⟨u, r, he, hg, hw, hnew⟩ := hI.getnewbuf (p := p) c.size rooms contents
  have hheld : Entry c → c.held = none := by
    cases c with
    | ahead vp n size bp needwait => exact False.elim
    | _ => exact fun _ => rfl
  have hcall : c.Ok u.buf p := by
    have hok := hg.inv.pc p
    obtain hpc | ⟨-, hentry⟩ := hpc
    · rw [(hw p).eq_run hpc] at hok
      exact hok
    · intro b' needwait hn
      exact absurd ((hheld hentry).symm.trans hn) (by simp)
  have hwait : ∀ b', (u.pc p).Waits b' → c.held = some (b', true) := by
    intro b' h
    rw [(hw p).waits] at h
    obtain hpc | ⟨hpc, -⟩ := hpc
    · rw [hpc] at h
      exact h.resolve_left (by simp)
    · rw [hpc] at h
      exact absurd h (Pc.not_waits_user b')
  unfold Cache.miss
  rw [he]
  cases r with
  | none =>
    have ht := hg.trans (hg.inv.goto (p := p) (.sleep .freelist c) hcall fun b' h => Or.inr (hwait b' h))
    exact ⟨_, rfl, ht.inv, ht.keeping, ht.quiet.unique⟩
  | some b =>
    have hb := hnew b rfl
    have hno' : ∀ k, c.block = some k → ¬u.Cached k := fun k hk hc => hno k hk (hg.quiet.cached hc)
    by_cases hsize : (u.buf b).bufsize ≠ c.size
    · have ht := hg.trans (hg.inv.goto (p := p) (.alloc b c true) ⟨hcall, hb.holders, hb.vp, hb.inval⟩
        fun b' h => Or.inr (hwait b' h))
      refine ⟨_, ?_, ht.inv, ht.keeping, ht.quiet.unique⟩
      exact (if_pos hsize)
    · have hrun := hg.trans (hg.inv.goto (p := p) (.run c) hcall fun b' h => Or.inr (hwait b' h))
      have hself : (u.goto p (.run c)).pc p = .run c := Function.update_self _ _ _
      have hb' : New (u.goto p (.run c)) p b := by
        refine ⟨hb.holders, hb.inval, hb.vp, ?_⟩
        rw [hself]
        rintro (hr | ⟨needwait, hr⟩)
        · cases hr
        · exact absurd ((hcall b needwait hr).2.1.symm.trans hb.inval) (by decide)
      obtain ⟨t, ht, hf⟩ := hrun.inv.filled hself hb'
      rw [goto_filled] at ht
      refine ⟨t, ?_, hf.inv, fun hk => hf.keeping (hrun.keeping hk), fun hu => hf.unique (hrun.quiet.unique hu) hno'⟩
      exact (if_neg hsize).trans ht

/-- A round of a call. -/
theorem run (rooms : List Bool) (contents : Nat → UInt8) (hpc : s.pc p = .run c ∨ s.pc p = .user ∧ Entry c) :
    ∃ t, s.run p c rooms contents = .ok t ∧ t.Inv space ∧ Keeping s t ∧ (Unique s → Unique t) := by
  unfold Cache.run
  cases hi : c.block.bind fun k => s.incore k.1 k.2 with
  | none =>
    refine hI.miss hpc fun k hk => ?_
    rw [hk] at hi
    exact hI.incore_none hi
  | some b =>
    obtain ⟨k, hk, hin⟩ := Option.bind_eq_some_iff.1 hi
    have hinval := incore_some hin
    have hgood : ∀ t, Good space s t → ∃ t', (Except.ok t : Except String (Cache P nbuf)) = .ok t' ∧ t'.Inv space ∧ Keeping s t' ∧
        (Unique s → Unique t') := fun t ht => ⟨t, rfl, ht.inv, ht.keeping, ht.quiet.unique⟩
    have hidle : c.held = none → ∀ b', ¬(s.pc p).Waits b' := by
      intro hn b' h
      obtain hpc | ⟨hpc, -⟩ := hpc
      · rw [hpc] at h
        exact absurd (hn.symm.trans (h.resolve_left (by simp))) (by simp)
      · rw [hpc] at h
        exact absurd h (Pc.not_waits_user b')
    cases c with
    | ahead vp n size bp needwait => exact hgood _ (hI.aheadHit (hpc.resolve_right fun h => h.2))
    | getblk vp n size => exact hgood _ (hI.hit rfl (hidle rfl) hinval)
    | bread vp n size => exact hgood _ (hI.hit rfl (hidle rfl) hinval)
    | breada vp n size rablkno => exact hgood _ (hI.hit rfl (hidle rfl) hinval)
    | geteblk size => cases hk

/-! ## allocbuf -/

/-- The storage is exchanged; what is owed stays if the buffer does not shrink. -/
theorem allocbuf (size : Nat) (contents : Nat → UInt8) (hh : (s.buf b).holders = [.proc p]) (hw : ¬(s.pc p).Waits b) :
    (s.allocbuf b size contents).Inv space ∧ Quiet s (s.allocbuf b size contents) ∧
      (((s.buf b).flags.inval = false → (s.buf b).flags.delwri = true → (s.buf b).bufsize ≤ size) →
        Keeping s (s.allocbuf b size contents)) := by
  obtain ⟨hheld, -⟩ := hI.mine hh hw
  have hlen := hheld.size
  have he : Edits s (s.allocbuf b size contents) b ((s.buf b).allocbuf size contents) :=
    ⟨⟨fun _ hb => Function.update_of_ne hb _ _, fun _ _ _ => Iff.rfl, fun _ _ _ h => h⟩, by simp [Cache.allocbuf, Cache.modify], rfl,
      by simp [Cache.allocbuf, Cache.modify]⟩
  refine ⟨hI.held hh hw he rfl (fun _ _ => rfl) (fun _ _ h => h) { hheld with
      active := fun h => absurd (hheld.idle.symm.trans h) (by decide)
      error := fun h => (hheld.error h).imp_right False.elim
      size := ?_ } (hI.buf b).hash (hI.seen he.outside (by rw [he.buf]; exact ⟨rfl, rfl, rfl, rfl, id, id⟩) p),
    he.quiet fun h => ⟨h, rfl, rfl⟩, fun hs => he.keeping fun hk vp n d hd => ?_⟩
  · simp only [Buf.allocbuf, Option.getD_some, List.length_append, List.length_take, List.length_drop, memory, List.length_map,
      List.length_range]
    omega
  · obtain ⟨h₁, h₂, h₃, h₄, h₅⟩ := hk b vp n d hd
    refine ⟨h₁, h₂, h₃, h₄, h₅.trans ?_⟩
    simp only [Buf.allocbuf, Option.getD_some, Nat.min_eq_left (hs h₂ h₁)]
    rw [← hlen, List.take_length]
    exact List.prefix_append _ _

/-! ## The driver -/

/-- The end of the wait for the driver. -/
theorem biowait {release : Bool} (hpc : s.pc p = .biowait b release) : Good space s (s.biowait p b release) := by
  obtain ⟨hh, hdw, -⟩ : (s.buf b).holders = [.proc p] ∧ (s.buf b).flags.delwri = false ∧ (s.buf b).flags.async = false := by
    have := hI.pc p
    rwa [hpc] at this
  have hbk := hI.buf b
  unfold Cache.biowait
  by_cases hdone : (s.buf b).flags.done = true
  swap
  · rw [if_pos (by simp [hdone])]
    exact Good.refl hI
  rw [if_neg (by simp [hdone])]
  have hact : (s.buf b).active = false := by
    cases ha : (s.buf b).active with
    | false => rfl
    | true => exact absurd ((hbk.ok.active ha).2.1.symm.trans hdone) (by decide)
  have hbusy : (s.buf b).flags.busy = true := by
    cases hf : (s.buf b).flags.busy with
    | true => rfl
    | false => exact absurd ((hbk.ok.free hf).symm.trans hh) (by simp)
  -- an error makes the buffer invalid
  obtain ⟨u, hu, ⟨inval, error, e, he, herr, hinval⟩, hpcu, hlist⟩ : ∃ u : Cache P nbuf,
      (if ((s.buf b).flags.error || (s.buf b).error != 0) = true then
        let v := if (!(s.buf b).flags.inval) = true then (s.modify b (·.setFlags ({ · with inval := true }))).bremhash b else s
        if (v.buf b).error = 0 then v.modify b ({ · with error := 5 }) else v.modify b (·.setFlags ({ · with error := true }))
      else s) = u ∧
      (∃ inval error e, Edits s u b
          { s.buf b with flags := { (s.buf b).flags with inval := inval, error := error }, error := e } ∧
        (error = true → inval = true) ∧ (inval = false → u.bufhash = s.bufhash ∧ (s.buf b).flags.inval = false)) ∧
      u.pc = s.pc ∧ u.bfreelist = s.bfreelist := by
    refine ⟨_, rfl, ?_⟩
    by_cases herr : ((s.buf b).flags.error || (s.buf b).error != 0) = true
    · rw [if_pos herr]
      simp only
      obtain ⟨v, hv, hve, h₁, h₂⟩ : ∃ v : Cache P nbuf,
          (if (!(s.buf b).flags.inval) = true then (s.modify b (·.setFlags ({ · with inval := true }))).bremhash b else s) = v ∧
          Edits s v b ((s.buf b).setFlags ({ · with inval := true })) ∧ v.pc = s.pc ∧ v.bfreelist = s.bfreelist := by
        refine ⟨_, rfl, ?_⟩
        cases hi : (s.buf b).flags.inval with
        | false =>
          have hm : Edits s (s.modify b (·.setFlags ({ · with inval := true }))) b _ := Edits.modify rfl rfl
          exact ⟨⟨hm.outside.trans Outside.bremhash, hm.buf, hm.alloc, hm.total⟩, rfl, rfl⟩
        | true => exact ⟨⟨Outside.rfl', by simp [Buf.setFlags, ← hi], by simp [Buf.setFlags], rfl⟩, rfl, rfl⟩
      rw [hv]
      split
      · exact ⟨⟨true, (s.buf b).flags.error, 5, hve.trans (Edits.modify (by rw [hve.buf]; rfl) (by rw [hve.buf]; rfl)),
          fun _ => rfl, by intros; contradiction⟩, h₁, h₂⟩
      · exact ⟨⟨true, true, (s.buf b).error, hve.trans (Edits.modify (by rw [hve.buf]; rfl) (by rw [hve.buf]; rfl)),
          fun _ => rfl, by intros; contradiction⟩, h₁, h₂⟩
    · rw [if_neg herr]
      refine ⟨⟨(s.buf b).flags.inval, (s.buf b).flags.error, (s.buf b).error, ⟨Outside.rfl', rfl, by simp, rfl⟩, fun he => ?_,
        fun h => ⟨rfl, h⟩⟩, rfl, rfl⟩
      simp [he] at herr
  simp only
  rw [hu]
  have hself : (u.goto p .user).pc p = .user := Function.update_self _ _ _
  have hwaits : ∀ b', b' ≠ b → ¬(s.pc p).Waits b' := by
    rintro b' hne h
    rw [hpc] at h
    obtain ⟨r, he⟩ | h := h
    · obtain ⟨rfl, -⟩ := Pc.biowait.inj he
      exact hne rfl
    · cases h
  have hg : Good space s (u.goto p .user) := by
    refine ⟨hI.step_at (p := p) (he.goto .user).outside (fun p' hp => Or.inl ((Function.update_of_ne hp _ _).trans (congrFun hpcu p')))
      (hI.others hh) (fun b' hne h => absurd h (hwaits b' hne)) (BufOk.of_held (h := .proc p) ?_ ?_ ?_) (by rw [hself]; trivial) ?_ ?_
      he.total, he.quiet fun h => ⟨(hinval h).2, rfl, rfl⟩, he.keeping fun hk => ?_⟩
    · rw [(he.goto .user).buf]
      exact ⟨hbusy, hh, by intros; contradiction, fun h => absurd (hact.symm.trans h) (by decide), fun h => Or.inl (herr h),
        hbk.ok.cached, fun h => hbk.ok.valid (hinval h).2, hbk.ok.size⟩
    · rw [show (u.goto p .user).bfreelist = s.bfreelist from hlist]
      exact hbk.held hbusy
    · rw [(he.goto .user).buf]
      exact fun h => (hinval h).1 ▸ hbk.hash (hinval h).2
    · rw [show (u.goto p .user).bfreelist = s.bfreelist from hlist]
      exact hI.nodup
    · rw [(he.goto .user).buf]
      exact he.alloc
    · exact fun vp n d hd => absurd ((hk b vp n d hd).1.symm.trans hdw) (by decide)
  cases release with
  | false => exact hg
  | true =>
    have hrel := hg.inv.brelse (p := p) (b := b) (by rw [(he.goto .user).buf]; exact hh) (by rw [hself]; exact Pc.not_refs_user b)
    exact hg.trans hrel

/-- The driver has finished with the buffer. -/
theorem biodone {err : Option Nat} (hact : (s.buf b).active = true) : Good space s (s.biodone b err contents) := by
  have hbk := hI.buf b
  obtain ⟨hbusy, hdone, hdw⟩ := hbk.ok.active hact
  obtain ⟨error, dirty, e, addr, he, haddr⟩ := (s.buf b).complete_eq hbk.ok.size err contents
  unfold Cache.biodone
  obtain ⟨u, hu, hedit, hpc, hlist, hhash⟩ : ∃ u, s.modify b (·.complete err contents) = u ∧ Edits s u b
      { s.buf b with
        flags := { (s.buf b).flags with error := error, dirty := dirty }, error := e, addr := addr, active := false } ∧
      u.pc = s.pc ∧ u.bfreelist = s.bfreelist ∧ u.bufhash = s.bufhash := ⟨_, rfl, Edits.modify he rfl, rfl, rfl, rfl⟩
  have hbuf := hedit.buf
  simp only
  rw [hu]
  have howed : (∀ b, (s.buf b).Keeps) → (s.buf b).owed = none := by
    intro hk
    cases ho : (s.buf b).owed with
    | none => rfl
    | some o => exact absurd ((hk b o.1 o.2.1 o.2.2 ho).1.symm.trans hdw) (by decide)
  have hasync : (u.buf b).flags.async = (s.buf b).flags.async := by rw [hbuf]
  have hend : ∀ v : Cache P nbuf, Edits v ((v.modify b (·.setFlags ({ · with async := false, done := true }))).wakeup (.buf b)) b
      ((v.buf b).setFlags ({ · with async := false, done := true })) := fun v => (Edits.modify rfl rfl).wakeup _
  rw [hasync]
  cases has : (s.buf b).flags.async with
  | true =>
    have hio : (s.buf b).holders = [.io] := by
      refine (hbk.waits hact).resolve_right ?_
      rintro ⟨p, -, hw⟩
      exact absurd (((hI.pc p).waits hw).2.symm.trans has) (by decide)
    have hrelu : Releasable u .io b := by
      refine ⟨?_, ?_, ?_, ?_, by rw [hlist]; exact hbk.held hbusy, ?_⟩ <;> rw [hbuf]
      · exact hio
      · exact hbk.ok.valid
      · exact haddr
      · rw [hhash]
        exact hbk.hash
    have hrel := brelse_spec .io b u
    have hvk := hrelu.bufOk hrel
    have hvowed : ((u.brelse .io b).buf b).owed = (s.buf b).owed := by
      rw [hrel.buf]
      exact ((u.buf b).brelse_owed).trans (by rw [hbuf])
    have hquiet := hrel.quiet b
    rw [hbuf] at hquiet
    simp only [if_true]
    generalize u.brelse .io b = v at *
    have ht := hend v
    have hall := (hedit.trans (.released hrel)).trans ht
    have htpc : ∀ p, (s.pc p).Woken (((v.modify b (·.setFlags ({ · with async := false, done := true }))).wakeup (.buf b)).pc p) := by
      intro p
      have := hrel.pc p
      rw [hpc] at this
      exact this.trans (Pc.Woken.of_wakeup _ _)
    obtain ⟨hoff, hidle, -⟩ := hvk.free hrel.busy
    have hbt := hvk.flags ht.buf rfl rfl (fun p => (Pc.Woken.of_wakeup _ _).waits.2) ⟨rfl, rfl, rfl, rfl, rfl⟩
      (fun h => absurd (hoff ▸ h) List.not_mem_nil) fun h => absurd (hidle.symm.trans h) (by decide)
    refine ⟨hI.of_outside hall.outside (fun p b' _ => (htpc p).waits.2) hbt (fun p => ?_) ?_ (by rw [hall.buf]; exact hall.alloc)
      hall.total, hall.quiet hquiet, hall.keeping fun hk vp n d hd => absurd ((hvowed.trans (howed hk)).symm.trans hd) (by simp)⟩
    · exact hI.unseen hall.outside (htpc p) (hI.not_refs hio (by simp))
    · exact hrel.nodup (by rw [hlist]; exact hbk.held hbusy) (by rw [hlist]; exact hI.nodup)
  | false =>
    obtain ⟨p, hp, hwp⟩ : s.Awaited b := by
      refine (hbk.waits hact).resolve_left fun hio => ?_
      exact absurd ((hbk.ok.io (by rw [hio]; exact List.mem_singleton.2 rfl)).2.symm.trans has) (by decide)
    simp only [Bool.false_eq_true, if_false]
    have ht := hend u
    rw [hbuf] at ht
    have hall := hedit.trans ht
    have htpc : ∀ p, (s.pc p).Woken (((u.modify b (·.setFlags ({ · with async := false, done := true }))).wakeup (.buf b)).pc p) := by
      intro p
      rw [← hpc]
      exact Pc.Woken.of_wakeup _ _
    have htlist : ((u.modify b (·.setFlags ({ · with async := false, done := true }))).wakeup (.buf b)).bfreelist = s.bfreelist := hlist
    have hthash : ((u.modify b (·.setFlags ({ · with async := false, done := true }))).wakeup (.buf b)).bufhash = s.bufhash := hhash
    generalize (u.modify b (·.setFlags ({ · with async := false, done := true }))).wakeup (.buf b) = t at *
    have hawait : t.Awaited b := ⟨p, by rw [hall.buf]; exact hp, (htpc p).waits.2 hwp⟩
    have hbt : t.BufOk b := by
      refine BufOk.of_held (h := .proc p) ?_ (by rw [htlist]; exact hbk.held hbusy) ?_ <;> rw [hall.buf]
      · exact ⟨hbusy, hp, by intros; contradiction, by intros; contradiction, fun _ => Or.inr hawait, hbk.ok.cached, hbk.ok.valid,
          haddr⟩
      · rw [hthash]
        exact hbk.hash
    refine ⟨hI.of_outside hall.outside (fun p b' _ => (htpc p).waits.2) hbt (fun p' => ?_) (by rw [htlist]; exact hI.nodup)
      (by rw [hall.buf]; exact hall.alloc) hall.total, hall.quiet fun h => ⟨h, rfl, rfl⟩,
      hall.keeping fun hk vp n d hd => absurd ((howed hk).symm.trans hd) (by simp)⟩
    have hseen := hI.seen hall.outside (by rw [hall.buf]; exact ⟨rfl, rfl, rfl, rfl, fun _ => rfl, id⟩) p'
    exact hseen.frame (htpc p') fun _ _ => rfl

/-! ## Writes -/

theorem bwrite (hh : (s.buf b).holders = [.proc p]) (hpc : s.pc p = .user) :
    ∃ t, s.bwrite p b = .ok t ∧ Good space s t := by
  have hr : ¬(s.pc p).Refs b := by rw [hpc]; exact Pc.not_refs_user b
  have hw : ∀ b', ¬(s.pc p).Waits b' := fun b' => by rw [hpc]; exact Pc.not_waits_user b'
  have hbusy := (hI.mine hh (hw b)).1.busy
  unfold Cache.bwrite
  by_cases hinval : (s.buf b).flags.inval = true
  · rw [if_pos hinval]
    have hg := hI.brelse hh hr
    exact ⟨_, rfl, hg.trans (hg.inv.goto .user trivial fun b' h => absurd (((brelse_spec (.proc p) b s).pc p).waits.1 h) (hw b'))⟩
  have hvalid : (s.buf b).flags.inval = false := by simpa using hinval
  rw [if_neg hinval, if_neg (by simp [hbusy]), if_neg ((hI.buf b).ok.valid hvalid)]
  obtain ⟨age, he⟩ := (s.buf b).startWrite_eq false
  refine ⟨_, rfl, hI.started hh hw _ (Or.inl ⟨true, rfl⟩) he rfl rfl rfl rfl rfl rfl (Or.inl rfl) ?_⟩
  have hbuf : ((s.modify b fun x => (x.startWrite false).strategy).goto p (.biowait b true)).buf b =
      ((s.buf b).startWrite false).strategy := by
    simp [Cache.goto, Cache.modify]
  simp only [Pc.Ok, hbuf, he]
  exact ⟨hh, trivial, trivial⟩

theorem editUser (hh : (s.buf b).holders = [.proc p]) (hpc : s.pc p = .user) (flags : Flags)
    (addr : Option (List UInt8)) (owed : Option (Vnode × Int × List UInt8))
    (hf : f (s.buf b) = { s.buf b with flags := flags, addr := addr, owed := owed })
    (hbusy : flags.busy = (s.buf b).flags.busy) (herr : flags.error = (s.buf b).flags.error)
    (hnc : flags.nocache = (s.buf b).flags.nocache) (hinval : (s.buf b).flags.inval = true → flags.inval = true)
    (hsize : (addr.getD []).length = (s.buf b).bufsize) (hk : (∀ b, (s.buf b).Keeps) → (f (s.buf b)).Keeps) :
    Good space s (s.modify b f) := by
  have hw : ¬(s.pc p).Waits b := by rw [hpc]; exact Pc.not_waits_user b
  obtain ⟨hheld, -⟩ := hI.mine hh hw
  have hv : flags.inval = false → (s.buf b).flags.inval = false := by
    intro h
    cases hi : (s.buf b).flags.inval with
    | false => rfl
    | true => exact absurd ((hinval hi).symm.trans h) (by decide)
  exact hI.edit hh hw (Edits.modify hf rfl) rfl (fun _ _ => rfl) (fun _ _ h => h) ⟨hbusy.trans hheld.busy, hh, by intros; contradiction,
    fun h => absurd (hheld.idle.symm.trans h) (by decide), fun h => Or.inl (hinval ((hheld.error (herr.symm.trans h)).resolve_right id)),
    hnc.trans hheld.cached, fun h => hheld.valid (hv h), hsize⟩ (fun h => ⟨rfl, hv h, rfl, rfl⟩)
    (by rw [show (s.modify b f).pc p = .user from hpc]; trivial) (by rwa [hf] at hk)

theorem invalidate (hh : (s.buf b).holders = [.proc p]) (hpc : s.pc p = .user) :
    Good space s (s.modify b fun x => { x.setFlags ({ · with inval := true }) with owed := none }) :=
  hI.editUser hh hpc { (s.buf b).flags with inval := true } (s.buf b).addr none rfl rfl rfl rfl
    (fun _ => rfl) (hI.buf b).ok.size fun _ => (by rintro _ _ _ ⟨⟩)

theorem store (hh : (s.buf b).holders = [.proc p]) (hpc : s.pc p = .user) (contents : Nat → UInt8) :
    Good space s (s.modify b (·.store contents)) := by
  refine hI.editUser hh hpc (f := (·.store contents)) (s.buf b).flags _ _ rfl rfl rfl rfl id (by simp [memory]) fun hk => ?_
  intro vp n d hd
  obtain ⟨⟨vp', n', d'⟩, ho, he⟩ := Option.map_eq_some_iff.1 hd
  obtain ⟨h₁, h₂, h₃, h₄, -⟩ := hk b vp' n' d' ho
  obtain ⟨rfl, rfl, rfl⟩ : vp' = vp ∧ n' = n ∧ memory (s.buf b).bufsize contents = d := by simpa using he
  exact ⟨h₁, h₂, h₃, h₄, List.prefix_rfl⟩

/-- `bdwrite` marks the buffer for writing. -/
theorem bdwrite (hh : (s.buf b).holders = [.proc p]) (hpc : s.pc p = .user) :
    ∃ t, s.bdwrite p b = .ok t ∧ Good space s t := by
  have hr : ∀ t : Cache P nbuf, t.pc = s.pc → ¬(t.pc p).Refs b := fun t ht => by
    rw [ht, hpc]
    exact Pc.not_refs_user b
  have hbusy := (hI.mine hh (mt Pc.Waits.refs (hr s rfl))).1.busy
  unfold Cache.bdwrite
  rw [if_neg (by simp [hbusy])]
  by_cases hinval : (s.buf b).flags.inval = true
  · rw [if_pos hinval]
    exact ⟨_, rfl, hI.brelse hh (hr s rfl)⟩
  rw [if_neg hinval]
  by_cases htape : (s.buf b).flags.tape = true
  · rw [if_pos htape]
    exact hI.bwrite hh hpc
  rw [if_neg htape]
  have hvalid : (s.buf b).flags.inval = false := by simpa using hinval
  -- the header as it is released
  obtain ⟨u, hu, hg, hh', hpcu⟩ : ∃ u : Cache P nbuf,
      (let v := s.modify b fun x => x.setFlags ({ · with read := false, done := false })
       let v := if !(v.buf b).flags.delwri then v.modify b fun x => x.setFlags ({ · with dirty := true, delwri := true }) else v
       v.modify b fun x => { x with owed := x.vp.map fun vp => (vp, x.lblkno, x.addr.getD []) }) = u ∧
      Good space s u ∧ (u.buf b).holders = [.proc p] ∧ u.pc = s.pc := by
    refine ⟨_, rfl, ?_⟩
    obtain ⟨dirty, he⟩ : ∃ dirty, (let v := s.modify b fun x => x.setFlags ({ · with read := false, done := false })
        let v := if !(v.buf b).flags.delwri then v.modify b fun x => x.setFlags ({ · with dirty := true, delwri := true }) else v
        v.modify b fun x => { x with owed := x.vp.map fun vp => (vp, x.lblkno, x.addr.getD []) }) =
        s.modify b fun x => { x with
          flags := { x.flags with read := false, done := false, dirty := dirty, delwri := true }
          owed := x.vp.map fun vp => (vp, x.lblkno, x.addr.getD []) } := by
      cases hd : (s.buf b).flags.delwri with
      | false => exact ⟨true, by simp [Cache.modify, Buf.setFlags, hd]⟩
      | true => exact ⟨(s.buf b).flags.dirty, by simp [Cache.modify, Buf.setFlags, hd]⟩
    rw [he]
    refine ⟨hI.editUser hh hpc _ _ _ rfl rfl rfl rfl id (hI.buf b).ok.size fun _ => ?_, by simp [Cache.modify, hh], rfl⟩
    intro vp n d hd
    obtain ⟨vp', hvp, he⟩ := Option.map_eq_some_iff.1 hd
    obtain ⟨rfl, rfl, rfl⟩ : vp' = vp ∧ (s.buf b).lblkno = n ∧ (s.buf b).addr.getD [] = d := by simpa using he
    exact ⟨rfl, hvalid, hvp, rfl, List.prefix_rfl⟩
  simp only at hu ⊢
  rw [hu]
  exact ⟨_, rfl, hg.trans (hg.inv.brelse hh' (hr u hpcu))⟩

/-- A process goes on from where it is. -/
theorem resume {rooms : List Bool} (hal : ∀ chan c, s.pc p ≠ .sleep chan c) :
    ∃ t, s.resume p rooms contents = .ok t ∧ t.Inv space ∧ (s.Sized (.resume p rooms contents) → Keeping s t) ∧
      (s.Alone (.resume p rooms contents) → Unique s → Unique t) ∧ (¬s.Alone (.resume p rooms contents) → ¬Unique t) := by
  have hgood : ∀ t, Good space s t → s.Alone (.resume p rooms contents) →
      ∃ t', (Except.ok t : Except String (Cache P nbuf)) = .ok t' ∧ t'.Inv space ∧ (s.Sized (.resume p rooms contents) → Keeping s t') ∧
      (s.Alone (.resume p rooms contents) → Unique s → Unique t') ∧ (¬s.Alone (.resume p rooms contents) → ¬Unique t') :=
    fun t ht hone => ⟨t, rfl, ht.inv, fun _ => ht.keeping, fun _ => ht.quiet.unique, fun hn => absurd hone hn⟩
  have hpcok := hI.pc p
  unfold Cache.resume
  cases hpc : s.pc p with
  | user => exact hgood s (Good.refl hI) (by simp [Alone, hpc])
  | sleep chan c => exact absurd hpc (hal chan c)
  | run c =>
    obtain ⟨t, ht, hinv, hkeep, hu⟩ := hI.run rooms contents (Or.inl hpc)
    exact ⟨t, ht, hinv, fun _ => hkeep, fun _ => hu, fun hn => absurd (by simp [Alone, hpc]) hn⟩
  | biowait b release => exact hgood _ (hI.biowait hpc) (by simp [Alone, hpc])
  | alloc b c new =>
    rw [hpc] at hpcok
    have hsame : ∀ k, s.Cached k → (s.allocbuf b c.size contents).Cached k := by
      rintro k ⟨b', hb'⟩
      refine ⟨b', ?_⟩
      by_cases he : b' = b
      · subst he
        simpa [Cache.allocbuf, Cache.modify, Buf.allocbuf] using hb'
      · simpa [Cache.allocbuf, Cache.modify, he] using hb'
    cases new with
    | true =>
      obtain ⟨hcall, hh, hvp, hinval⟩ := hpcok
      have hne : ∀ needwait, c.held ≠ some (b, needwait) := fun needwait hn =>
        absurd ((hcall b needwait hn).2.1.symm.trans hinval) (by decide)
      have hw : ¬(s.pc p).Waits b := by
        rw [hpc]
        rintro (⟨_, h⟩ | h)
        · cases h
        · exact hne true h
      obtain ⟨hu, hquiet, hkeep⟩ := hI.allocbuf c.size contents hh hw
      have hbuf : (s.allocbuf b c.size contents).buf b = (s.buf b).allocbuf c.size contents := by
        simp [Cache.allocbuf, Cache.modify]
      have hother : ∀ b', b' ≠ b → (s.allocbuf b c.size contents).buf b' = s.buf b' := fun b' hb => Function.update_of_ne hb _ _
      have hpcu : (s.allocbuf b c.size contents).pc p = .alloc b c true := hpc
      simp only [if_true]
      generalize s.allocbuf b c.size contents = u at *
      have hrun : Good space u (u.goto p (.run c)) := by
        refine hu.goto _ (hcall.frame fun b' needwait hn => hother b' fun he => hne needwait (he ▸ hn)) fun b' h => ?_
        rw [hpcu] at h
        exact Or.inr (h.resolve_left (by simp))
      have hself : (u.goto p (.run c)).pc p = .run c := Function.update_self _ _ _
      have hb : New (u.goto p (.run c)) p b := by
        refine ⟨?_, ?_, ?_, ?_⟩
        · rw [goto_buf, hbuf]; exact hh
        · rw [goto_buf, hbuf]; exact hinval
        · rw [goto_buf, hbuf]; exact hvp
        · rw [hself]
          rintro (hr | ⟨needwait, hr⟩)
          · cases hr
          · exact hne needwait hr
      obtain ⟨t, ht, hf⟩ := hrun.inv.filled hself hb
      rw [goto_filled] at ht
      have hk : Keeping s u := hkeep fun h => absurd (hinval.symm.trans h) (by decide)
      refine ⟨t, ht, hf.inv, fun _ h => hf.keeping (hrun.keeping (hk h)), fun hone hu => ?_, fun hnot => ?_⟩
      · simp only [Alone, hpc] at hone
        exact hf.unique (hrun.quiet.unique (hquiet.unique hu)) fun k hk hc => hone k hk (hquiet.cached (hrun.quiet.cached hc))
      · simp only [Alone, hpc, not_forall, not_not] at hnot
        obtain ⟨k, hk, hc⟩ := hnot
        exact hf.not_unique hb.inval hk (hsame k hc)
    | false =>
      obtain ⟨hn, hh, hcache, hinval⟩ := hpcok
      have hw : ∀ b', ¬(s.pc p).Waits b' := by
        rw [hpc]
        rintro b' (⟨_, h⟩ | h)
        · cases h
        · exact absurd (hn.symm.trans h) (by simp)
      obtain ⟨hu, hquiet, hkeep⟩ := hI.allocbuf c.size contents hh (hw b)
      have hbuf : (s.allocbuf b c.size contents).buf b = (s.buf b).allocbuf c.size contents := by
        simp [Cache.allocbuf, Cache.modify]
      have hpcu : (s.allocbuf b c.size contents).pc = s.pc := rfl
      simp only [Bool.false_eq_true, if_false]
      generalize s.allocbuf b c.size contents = u at *
      have hret : Good space u (u.returned p b c) := by
        refine hu.returned (by rw [hbuf]; exact hh) hn (by rw [hpcu]; exact hw) (by rw [hbuf]; exact hinval) fun hneed => ?_
        simp [needsRead, hbuf, Buf.allocbuf, hcache, hinval] at hneed
      refine ⟨_, rfl, hret.inv, fun hsized h => ?_, fun _ hu => hret.quiet.unique (hquiet.unique hu), fun hnot => ?_⟩
      · simp only [Sized, hpc] at hsized
        exact hret.keeping (hkeep (fun _ => hsized) h)
      · exact absurd (by simp [Alone, hpc]) hnot

/-- A step keeps the invariant. What is owed stays where no delayed write is shrunk, and a block has one
buffer exactly while none is hashed for it a second time. -/
theorem step {op : Op P nbuf} (hal : s.Allowed op) :
    ∃ t, s.step op = .ok t ∧ t.Inv space ∧ (s.Sized op → Keeping s t) ∧ (s.Alone op → Unique s → Unique t) ∧
      (¬s.Alone op → ¬Unique t) := by
  have hholds : ∀ {p : P} {b}, .proc p ∈ (s.buf b).holders → (s.buf b).holders = [.proc p] := by
    intro p b hp
    have hok := (hI.buf b).ok
    cases hf : (s.buf b).flags.busy with
    | false => exact absurd (hok.free hf ▸ hp) List.not_mem_nil
    | true =>
      obtain ⟨h, hh⟩ := hok.busy hf
      rw [hh] at hp ⊢
      rw [List.mem_singleton.1 hp]
  have huser : ∀ {p : P} {b}, s.pc p = .user → ¬(s.pc p).Refs b := fun hp => by rw [hp]; exact Pc.not_refs_user _
  have hgood : ∀ {t}, Good space s t → s.Alone op →
      ∃ t', (Except.ok t : Except String (Cache P nbuf)) = .ok t' ∧ t'.Inv space ∧ (s.Sized op → Keeping s t') ∧
      (s.Alone op → Unique s → Unique t') ∧ (¬s.Alone op → ¬Unique t') :=
    fun {t} ht hone => ⟨t, rfl, ht.inv, fun _ => ht.keeping, fun _ => ht.quiet.unique, fun hn => absurd hone hn⟩
  have hfrom : ∀ {r : Except String (Cache P nbuf)}, (∃ t, r = .ok t ∧ Good space s t) → s.Alone op →
      ∃ t', r = .ok t' ∧ t'.Inv space ∧ (s.Sized op → Keeping s t') ∧ (s.Alone op → Unique s → Unique t') ∧
        (¬s.Alone op → ¬Unique t') := by
    rintro _ ⟨t, rfl, ht⟩ hone
    exact hgood ht hone
  cases op with
  | call p c rooms contents =>
    obtain ⟨t, ht, hinv, hkeep, hu⟩ := hI.run rooms contents (Or.inr hal)
    exact ⟨t, ht, hinv, fun _ => hkeep, fun _ => hu, fun hn => absurd trivial hn⟩
  | resume p rooms contents => exact hI.resume hal
  | brelse p b => exact hgood (hI.brelse (hholds hal.2) (huser hal.1)) trivial
  | bwrite p b => exact hfrom (hI.bwrite (hholds hal.2) hal.1) trivial
  | bdwrite p b => exact hfrom (hI.bdwrite (hholds hal.2) hal.1) trivial
  | bawrite p b =>
    obtain ⟨t, ht, hg, -⟩ := hI.bawrite (hholds hal.2) (huser hal.1)
    exact hfrom ⟨t, ht, hg⟩ trivial
  | invalidate p b => exact hgood (hI.invalidate (hholds hal.2) hal.1) trivial
  | store p b contents => exact hgood (hI.store (hholds hal.2) hal.1 contents) trivial
  | biodone b err contents => exact hgood (hI.biodone hal) trivial

end Inv

end Cache

end BsdKernel.Bio
