import BsdKernel.Lib.Trace
import BsdKernel.Net.Slcompress
/-!
# The receiver on any line

`last_recv` starts at 255, outside `rstate`, and `SLF_TOSS` guards it. Whatever
arrives, `rstate` is indexed in range, at most 120 bytes of header are copied,
and after an erroneous frame nothing is rebuilt until the line names a
connection again (`uncompress_runs`).
-/

namespace BsdKernel.Slcompress

open BsdKernel.Lib

variable {comp : Receive}

/-! ## Frames -/

namespace Frame
variable (f : Frame)

/-- `*cp` of a compressed packet. -/
def changes : Byte := f.buf f.bufp

/-- A compressed packet without `NEW_C`. -/
def Implicit : Prop := f.type = TYPE_COMPRESSED_TCP ∧ f.changes &&& NEW_C = 0

/-- The frame names a connection. -/
def Explicit : Prop :=
  f.type = TYPE_UNCOMPRESSED_TCP ∧ (f.buf (f.bufp + 9)).toNat < MAX_STATES ∨
    f.type = TYPE_COMPRESSED_TCP ∧ f.changes &&& NEW_C ≠ 0 ∧ (f.buf (f.bufp + 1)).toNat < MAX_STATES

/-- Where the data of a compressed packet start; the header decoded into does not
matter. -/
def dataStart : Int :=
  (decode f.buf 0 f.changes ⟨fun _ => 0, f.bufp + if f.changes &&& NEW_C ≠ 0 then 2 else 1⟩).cp

/-- An unknown type, a connection out of range, or a packet that ends before its
data start. -/
def Erroneous : Prop :=
  f.type ≠ TYPE_UNCOMPRESSED_TCP ∧ f.type ≠ TYPE_COMPRESSED_TCP ∨
    f.type = TYPE_UNCOMPRESSED_TCP ∧ (f.buf (f.bufp + 9)).toNat ≥ MAX_STATES ∨
    f.type = TYPE_COMPRESSED_TCP ∧ (f.changes &&& NEW_C ≠ 0 ∧ (f.buf (f.bufp + 1)).toNat ≥ MAX_STATES ∨
      f.len < (f.dataStart - f.bufp).toNat)

end Frame

section Cp
variable {buf : Mem} {changes : Byte} {d d' : Decoding}

theorem onBit_cp {bit : Byte} {go go' : Decoding → Decoding} (hgo : ∀ d, (go d).cp = (delta buf d.cp).2)
    (hgo' : ∀ d, (go' d).cp = (delta buf d.cp).2) (h : d.cp = d'.cp) :
    (onBit changes bit go d).cp = (onBit changes bit go' d').cp := by
  unfold onBit
  split
  · rw [hgo, hgo', h]
  · exact h

theorem decodeUrg_cp {th th' : Int} (h : d.cp = d'.cp) :
    (decodeUrg buf th changes d).cp = (decodeUrg buf th' changes d').cp := by
  unfold decodeUrg
  split
  · simp only [decodeU, h]
  · exact h

theorem decodeSeq_cp {th th' : Int} {n n' : Nat} (h : d.cp = d'.cp) :
    (decodeSeq buf th n changes d).cp = (decodeSeq buf th' n' changes d').cp := by
  unfold decodeSeq
  split_ifs
  · exact h
  · exact h
  · refine onBit_cp (fun _ => rfl) (fun _ => rfl) (onBit_cp (fun _ => rfl) (fun _ => rfl) ?_)
    exact onBit_cp (fun _ => rfl) (fun _ => rfl) (decodeUrg_cp h)

theorem decodeId_cp (h : d.cp = d'.cp) : (decodeId buf changes d).cp = (decodeId buf changes d').cp := by
  unfold decodeId
  split
  · simp only [decodeS, h]
  · exact h

/-- How much of a packet is header does not depend on the header rebuilt. -/
theorem decode_cp {n n' : Nat} (h : d.cp = d'.cp) : (decode buf n changes d).cp = (decode buf n' changes d').cp := by
  refine decodeId_cp (decodeSeq_cp ?_)
  simp only [decodePush, decodeSum, h]

end Cp

/-! ## One frame -/

/-- `rstate[last_recv]` is only used when this allows it. -/
def Receive.Guarded (comp : Receive) : Prop := comp.toss = true ∨ comp.lastRecv.toNat < MAX_STATES

/-- The state after a frame. -/
def feed (comp : Receive) (f : Frame) : Receive := ((slUncompressTcp comp f).map Received.comp).getD comp

section Rebuild
variable (comp : Receive) (f : Frame) (changes : Byte) (cp : Int)

theorem rebuild_lastRecv : (rebuild comp f changes cp).comp.lastRecv = comp.lastRecv := by
  unfold rebuild
  simp only
  split_ifs <;> rfl

theorem rebuild_copied : (rebuild comp f changes cp).copied = 0 := by
  unfold rebuild
  simp only
  split_ifs <;> rfl

end Rebuild

theorem ipHl_le (ip : Mem) : ipHl ip ≤ 15 := by
  simp only [ipHl, BitVec.toNat_and]
  exact Nat.and_le_right

theorem thOff_le (ip : Mem) (th : Int) : thOff ip th ≤ 15 := by
  have := (ip (th + 12)).isLt
  simp only [thOff, BitVec.toNat_ushiftRight, Nat.shiftRight_eq_div_pow]
  omega

/-- A frame in a guarded state: no index is out of range, and the state stays
guarded. -/
theorem slUncompressTcp_guarded (h : comp.Guarded) (f : Frame) :
    ∃ r, slUncompressTcp comp f = some r ∧ r.comp.Guarded ∧ r.copied ≤ 120 := by
  unfold slUncompressTcp
  simp only
  split_ifs with hu hid hc hnew hid' htoss hrange
  · exact ⟨_, rfl, .inl rfl, by simp [bad]⟩
  · have hl := ipHl_le fun j => set8 f.buf (f.bufp + 9) IPPROTO_TCP (f.bufp + j)
    have ho := thOff_le (fun j => set8 f.buf (f.bufp + 9) IPPROTO_TCP (f.bufp + j))
      (4 * ipHl fun j => set8 f.buf (f.bufp + 9) IPPROTO_TCP (f.bufp + j))
    exact ⟨_, rfl, .inr (by simp only; omega), by simp only; omega⟩
  · exact ⟨_, rfl, .inl rfl, by simp [bad]⟩
  · refine ⟨_, rfl, .inr ?_, by rw [rebuild_copied]; omega⟩
    rw [rebuild_lastRecv]
    simp only
    omega
  · exact ⟨_, rfl, h, by simp⟩
  · exact ⟨_, rfl, .inr (by rw [rebuild_lastRecv]; exact hrange), by rw [rebuild_copied]; omega⟩
  · -- The one bad index needs a state that is not guarded.
    exact absurd (h.resolve_left htoss) hrange
  · exact ⟨_, rfl, .inl rfl, by simp [bad]⟩

theorem feed_guarded (h : comp.Guarded) (f : Frame) : (feed comp f).Guarded := by
  obtain ⟨r, hr, hg, -⟩ := slUncompressTcp_guarded h f
  rw [feed, hr]
  exact hg

/-- Only a frame that names a connection ends the tossing. -/
theorem feed_toss_of_toss {f : Frame} (h : comp.toss = true) (hx : ¬f.Explicit) : (feed comp f).toss = true := by
  unfold feed slUncompressTcp
  simp only
  split_ifs with hu hid hc hnew hid'
  · rfl
  · exact absurd (.inl ⟨hu, by omega⟩) hx
  · rfl
  · exact absurd (.inr ⟨hc, hnew, by omega⟩) hx
  · exact h
  · rfl

theorem rebuild_toss {f : Frame} {cp : Int} (hcp : cp = f.bufp + if f.changes &&& NEW_C ≠ 0 then 2 else 1)
    (h : f.len < (f.dataStart - f.bufp).toNat) : (rebuild comp f f.changes cp).comp.toss = true := by
  have hd : f.dataStart = (decode f.buf (comp.csHlen comp.lastRecv.toNat) f.changes
      ⟨fun j => comp.rstate (csIpAddr comp.lastRecv.toNat + j), cp⟩).cp := by
    rw [Frame.dataStart, ← hcp]
    exact decode_cp rfl
  rw [hd] at h
  unfold rebuild
  simp only
  rw [if_pos h]
  rfl

theorem feed_toss_of_erroneous {f : Frame} (hg : comp.Guarded) (he : f.Erroneous) : (feed comp f).toss = true := by
  unfold feed slUncompressTcp
  simp only
  split_ifs with hu hid hc hnew hid' htoss hrange
  · rfl
  · rcases he with ⟨hu', -⟩ | ⟨-, hid'⟩ | ⟨hc, -⟩
    · exact absurd hu hu'
    · exact absurd hid' hid
    · rw [hu] at hc; cases hc
  · rfl
  · rcases he with ⟨-, hc'⟩ | ⟨hu', -⟩ | ⟨-, ⟨-, hbad⟩ | hshort⟩
    · exact absurd hc hc'
    · exact absurd hu' hu
    · exact absurd hbad hid'
    · exact rebuild_toss (by rw [Frame.changes, if_pos hnew]) hshort
  · exact htoss
  · rcases he with ⟨-, hc'⟩ | ⟨hu', -⟩ | ⟨-, ⟨hnew', -⟩ | hshort⟩
    · exact absurd hc hc'
    · exact absurd hu' hu
    · exact absurd hnew' hnew
    · exact rebuild_toss (by rw [Frame.changes, if_neg hnew]) hshort
  · exact absurd (hg.resolve_left htoss) hrange
  · rfl

/-! ## Lines -/

/-- An erroneous frame was seen, and none since named a connection. -/
def ErrorSeen (fs : List Frame) : Prop :=
  ∃ pre e post, fs = pre ++ e :: post ∧ e.Erroneous ∧ ∀ g ∈ post, ¬g.Explicit

theorem line_guarded (fs : List Frame) : (final feed Receive.init fs).Guarded := by
  have hstep : ∀ s f, Receive.Guarded s → True → (feed s f).Guarded := fun s f h _ => feed_guarded h f
  refine final_of_along hstep (.inl rfl) ?_
  generalize Receive.init = s
  induction fs generalizing s with
  | nil => trivial
  | cons f fs ih => exact ⟨trivial, ih _⟩

theorem line_toss {fs : List Frame} (h : ErrorSeen fs) : (final feed Receive.init fs).toss = true := by
  obtain ⟨pre, e, post, rfl, he, hpost⟩ := h
  have htoss := feed_toss_of_erroneous (line_guarded pre) he
  rw [final, List.foldl_append, List.foldl_cons]
  have hstep : ∀ s g, Receive.toss s = true → ¬Frame.Explicit g → (feed s g).toss = true :=
    fun s g hs hg => feed_toss_of_toss hs hg
  refine final_of_along hstep htoss ?_
  generalize feed _ e = s
  clear htoss
  induction post generalizing s with
  | nil => trivial
  | cons g post ih => exact ⟨hpost g (by simp), ih (fun g' hg' => hpost g' (by simp [hg'])) _⟩

/-- After `sl_compress_init` and any frames `fs`: `SLF_TOSS` is set or `last_recv`
is in range; whatever frame comes next, `rstate` is indexed in range and at most
120 bytes are copied into a cstate; and if it is compressed without `NEW_C` while
an erroneous frame has been seen since the last connection id, it is dropped. -/
theorem uncompress_runs (fs : List Frame) (f : Frame) :
    let comp := final feed Receive.init fs
    (comp.toss = true ∨ comp.lastRecv.toNat < MAX_STATES) ∧
      ∃ r, slUncompressTcp comp f = some r ∧ r.copied ≤ 120 ∧
        (f.Implicit → ErrorSeen fs → r.ret = 0 ∧ r.comp.rstate = comp.rstate) := by
  intro comp
  have hg : comp.Guarded := line_guarded fs
  obtain ⟨r, hr, -, hcopied⟩ := slUncompressTcp_guarded hg f
  refine ⟨hg, r, hr, hcopied, ?_⟩
  rintro ⟨htype, hnew⟩ herr
  have htoss : comp.toss = true := line_toss herr
  have hdrop : slUncompressTcp comp f = some ⟨comp, 0, f.bufp, f.buf, 0⟩ := by
    unfold slUncompressTcp
    simp only
    rw [if_neg (by rw [htype]; decide), if_pos htype, if_neg (fun h => h hnew), if_pos htoss]
  rw [hr] at hdrop
  cases hdrop
  exact ⟨rfl, rfl⟩

end BsdKernel.Slcompress
