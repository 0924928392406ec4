import BsdKernel.Kern.SockbufCount
/-!
# A socket buffer is a queue of records

A record of the abstract queue is a list of typed bytes and end-of-record marks,
in their order. `sbappend` extends the last record by the stream of the chain
(`extendLast`), `sbappendrecord` adds it as a new record, and `sbdrop` takes
bytes off the front (`dropRecs`): `sockbuf_refines`. Marks are on the last mbuf
of the chains that come in; the buffer itself is any.
-/

namespace BsdKernel.Socket

open BsdKernel.Lib

variable {ms : List Mbuf} {m : Mbuf}

/-! ## The abstract queue -/

inductive Item
  | byte (t : MType) (b : Byte)
  | eor
  deriving DecidableEq, Repr

/-- The number of bytes of a record. -/
def byteCount : List Item → Nat
  | [] => 0
  | .eor :: s => byteCount s
  | .byte _ _ :: s => byteCount s + 1

/-- A record without its first `n` bytes and the marks in front of the next. -/
def dropBytes : Nat → List Item → List Item
  | _, [] => []
  | n, .eor :: s => dropBytes n s
  | 0, .byte t b :: s => .byte t b :: s
  | n + 1, .byte _ _ :: s => dropBytes n s

/-- The queue without its first `n` bytes. A record goes with its last byte. -/
def dropRecs : Nat → List (List Item) → List (List Item)
  | _, [] => []
  | n, s :: q =>
    if n < byteCount s then dropBytes n s :: q else if n = byteCount s then q else dropRecs (n - byteCount s) q

/-- The queue with `s` behind its last record, or as a new record if the last
one has a mark. Nothing does not start a queue. -/
def extendLast (q : List (List Item)) (s : List Item) : List (List Item) :=
  match q.getLast? with
  | none => if s = [] then [] else [s]
  | some last => if Item.eor ∈ last then q ++ [s] else q.dropLast ++ [last ++ s]

@[simp] theorem byteCount_append (s t : List Item) : byteCount (s ++ t) = byteCount s + byteCount t := by
  induction s with
  | nil => simp [byteCount]
  | cons x s ih =>
    cases x with
    | byte => simp only [List.cons_append, byteCount, ih, Nat.add_right_comm]
    | eor => exact ih

theorem dropBytes_append_of_le {n : Nat} {s : List Item} (h : byteCount s ≤ n) (t : List Item) :
    dropBytes n (s ++ t) = dropBytes (n - byteCount s) t := by
  induction s generalizing n with
  | nil => rfl
  | cons x s ih =>
    cases x with
    | eor => exact ih h
    | byte =>
      obtain ⟨k, rfl⟩ : ∃ k, n = k + 1 := ⟨n - 1, by rw [byteCount] at h; omega⟩
      rw [byteCount] at h ⊢
      rw [List.cons_append, dropBytes, ih (by omega), Nat.add_sub_add_right]

/-! ## The records of a buffer -/

/-- The bytes of an mbuf, and its mark behind them. -/
def Mbuf.items (m : Mbuf) : List Item := m.data.map (.byte m.mtype) ++ if m.eor then [.eor] else []

def stream (ms : List Mbuf) : List Item := ms.flatMap Mbuf.items

/-- The bytes of a chain with the type of their mbuf. -/
def typedBytes (ms : List Mbuf) : List (MType × Byte) := ms.flatMap fun m => m.data.map (m.mtype, ·)

def view (sb : Sockbuf) : List (List Item) := sb.recs.map stream

/-- `M_EOR` is on no mbuf but the last. -/
def EorLast (ms : List Mbuf) : Prop := ∀ m ∈ ms.dropLast, m.eor = false

instance (ms : List Mbuf) : Decidable (EorLast ms) := inferInstanceAs (Decidable (∀ m ∈ ms.dropLast, m.eor = false))

@[simp] theorem stream_nil : stream [] = [] := rfl

@[simp] theorem stream_cons (m : Mbuf) (ms : List Mbuf) : stream (m :: ms) = m.items ++ stream ms := rfl

@[simp] theorem stream_append (ms ns : List Mbuf) : stream (ms ++ ns) = stream ms ++ stream ns := by simp [stream]

@[simp] theorem typedBytes_append (ms ns : List Mbuf) : typedBytes (ms ++ ns) = typedBytes ms ++ typedBytes ns := by
  simp [typedBytes]

theorem eor_mem_stream : Item.eor ∈ stream ms ↔ ms.any (·.eor) = true := by
  simp only [stream, List.mem_flatMap, List.any_eq_true, Mbuf.items]
  constructor
  · rintro ⟨m, hm, h⟩
    refine ⟨m, hm, ?_⟩
    by_contra he
    simp [he] at h
  · rintro ⟨m, hm, he⟩
    exact ⟨m, hm, by simp [he]⟩

theorem items_eor_false (h : m.eor = false) : m.items = m.data.map (.byte m.mtype) := by simp [Mbuf.items, h]

@[simp] theorem byteCount_bytes (t : MType) (bs : List Byte) : byteCount (bs.map (.byte t)) = bs.length := by
  induction bs with
  | nil => rfl
  | cons b bs ih => simp [byteCount, ih]

@[simp] theorem byteCount_items (m : Mbuf) : byteCount m.items = m.len := by
  unfold Mbuf.items
  rw [byteCount_append, byteCount_bytes]
  split <;> simp [byteCount, Mbuf.len]

theorem byteCount_stream (ms : List Mbuf) : byteCount (stream ms) = chainLen ms := by
  induction ms with
  | nil => rfl
  | cons m ms ih => simp [ih]

theorem EorLast.tail (h : EorLast (m :: ms)) : EorLast ms := by
  intro n hn
  cases ms with
  | nil => simp at hn
  | cons k ms => exact h n (by simpa using .inr hn)

/-- A marked mbuf ends its chain. -/
theorem EorLast.nil_of_eor (h : EorLast (m :: ms)) (he : m.eor = true) : ms = [] := by
  cases ms with
  | nil => rfl
  | cons k ms => simp [h m (by simp)] at he

theorem EorLast.stream_eq (h : EorLast ms) :
    stream ms = (typedBytes ms).map (fun x => .byte x.1 x.2) ++ if ms.any (·.eor) then [.eor] else [] := by
  induction ms with
  | nil => rfl
  | cons m ms ih =>
    have hb : typedBytes (m :: ms) = m.data.map (m.mtype, ·) ++ typedBytes ms := rfl
    rw [stream_cons, hb, List.map_append, List.map_map]
    by_cases he : m.eor = true
    · obtain rfl := h.nil_of_eor he
      simp [Mbuf.items, he, typedBytes, Function.comp_def]
    · rw [ih h.tail, items_eor_false (by simpa using he)]
      simp [he, Function.comp_def]

/-- A record with its mark at the end has one exactly when it ends in one. -/
theorem EorLast.mark_iff (h : EorLast ms) : Item.eor ∈ stream ms ↔ (stream ms).getLast? = some .eor := by
  constructor
  · intro hmem
    rw [h.stream_eq, if_pos (eor_mem_stream.1 hmem)]
    simp
  · exact List.mem_of_getLast?

/-! ## Compression -/

/-- An mbuf that is kept brings its bytes and leaves its mark to the end of the
loop. -/
theorem place_stream (c : Counters) (m : Mbuf) (front : List Mbuf) :
    stream (place c m front).2.reverse = stream front.reverse ++ m.data.map (.byte m.mtype) := by
  cases front with
  | nil => simp [place, Mbuf.items]
  | cons n front =>
    rw [place]
    split
    · rename_i h
      simp only [absorbs, Bool.and_eq_true, Bool.not_eq_true', beq_iff_eq] at h
      obtain ⟨⟨⟨-, he⟩, -⟩, ht⟩ := h
      simp [Mbuf.items, he, ht]
    · simp [Mbuf.items]

theorem place_typedBytes (c : Counters) (m : Mbuf) (front : List Mbuf) :
    typedBytes (place c m front).2.reverse = typedBytes front.reverse ++ m.data.map (m.mtype, ·) := by
  cases front with
  | nil => simp [place, typedBytes]
  | cons n front =>
    rw [place]
    split
    · rename_i h
      simp only [absorbs, Bool.and_eq_true, Bool.not_eq_true', beq_iff_eq] at h
      simp [typedBytes, h.2]
    · simp [typedBytes]

theorem place_head (c : Counters) (m : Mbuf) (front : List Mbuf) :
    (place c m front).2.head?.all (!·.eor) = true := by
  cases front with
  | nil => simp [place]
  | cons n front =>
    rw [place]
    split
    · rename_i h
      simp only [absorbs, Bool.and_eq_true, Bool.not_eq_true', beq_iff_eq] at h
      simpa using h.1.1.2
    · simp

/-- A marked mbuf at the end of the chain is freed only behind another of the
record, which takes its mark. -/
theorem discards_ends {front : List Mbuf} (h : discards m none front.head? m.eor) (he : m.eor = true) :
    front ≠ [] := by
  rintro rfl
  simp [discards, he] at h

/-- No byte is lost, and the record ends in a mark if the chain does. The mark
is seen only at the end of the chain, when the record has an mbuf. -/
theorem compressLoop_typedBytes (c : Counters) (front : List Mbuf) (eor : Bool) (ms : List Mbuf) (hm : EorLast ms)
    (he : eor = true → ms = [] ∧ front ≠ []) :
    typedBytes (compressLoop c front eor ms).2 = typedBytes front.reverse ++ typedBytes ms ∧
      ((eor || ms.any (·.eor)) = true → (compressLoop c front eor ms).2.getLast?.any (·.eor) = true) := by
  induction ms generalizing c front eor with
  | nil =>
    cases front with
    | nil =>
      refine ⟨rfl, fun h => absurd rfl (he (by simpa using h)).2⟩
    | cons n front =>
      refine ⟨by simp [compressLoop, setEor, typedBytes], fun h => ?_⟩
      simp_all [compressLoop, setEor]
  | cons m ms ih =>
    have he0 : eor = false := by
      by_contra h
      simpa using (he (by simpa using h)).1
    subst he0
    have hb : typedBytes (m :: ms) = m.data.map (m.mtype, ·) ++ typedBytes ms := rfl
    rw [compressLoop]
    simp only [Bool.false_or, List.any_cons]
    split
    · rename_i hd
      have hempty : m.data = [] := by
        simp only [discards, Bool.and_eq_true] at hd
        simpa using hd.1
      obtain ⟨h₁, h₂⟩ := ih c front m.eor hm.tail (fun h => by
        obtain rfl := hm.nil_of_eor h
        exact ⟨rfl, discards_ends hd h⟩)
      exact ⟨by rw [h₁, hb, hempty]; rfl, h₂⟩
    · obtain ⟨h₁, h₂⟩ := ih (place c m front).1 (place c m front).2 m.eor hm.tail
        (fun h => ⟨hm.nil_of_eor h, place_ne_nil c m front⟩)
      exact ⟨by rw [h₁, place_typedBytes, hb, List.append_assoc], h₂⟩

/-- Behind an mbuf without a mark, compression appends the stream of the chain. -/
theorem compressLoop_stream (c : Counters) (front : List Mbuf) (eor : Bool) (ms : List Mbuf) (hm : EorLast ms)
    (he : eor = true → ms = [] ∧ front ≠ []) (hfront : front.head?.all (!·.eor) = true) :
    stream (compressLoop c front eor ms).2 = stream front.reverse ++ ((if eor then [.eor] else []) ++ stream ms) := by
  induction ms generalizing c front eor with
  | nil =>
    cases front with
    | nil =>
      have : eor = false := by
        by_contra h
        exact (he (by simpa using h)).2 rfl
      simp [compressLoop, setEor, this]
    | cons n front =>
      have hn : n.eor = false := by simpa using hfront
      simp [compressLoop, setEor, Mbuf.items, hn]
  | cons m ms ih =>
    have he0 : eor = false := by
      by_contra h
      simpa using (he (by simpa using h)).1
    subst he0
    rw [compressLoop]
    simp only [Bool.false_or, Bool.false_eq_true, if_false, List.nil_append]
    split
    · rename_i hd
      have hempty : m.data = [] := by
        simp only [discards, Bool.and_eq_true] at hd
        simpa using hd.1
      rw [ih c front m.eor hm.tail (fun h => by
        obtain rfl := hm.nil_of_eor h
        exact ⟨rfl, discards_ends hd h⟩) hfront, stream_cons, Mbuf.items, hempty]
      rfl
    · rw [ih _ _ m.eor hm.tail (fun h => ⟨hm.nil_of_eor h, place_ne_nil c m front⟩) (place_head c m front),
        place_stream, stream_cons, Mbuf.items, List.append_assoc, List.append_assoc]

theorem sbcompress_stream (c : Counters) (rec m : List Mbuf) (hm : EorLast m)
    (hrec : rec.getLast?.all (!·.eor) = true) : stream (sbcompress c rec m).2 = stream rec ++ stream m := by
  have h := compressLoop_stream c rec.reverse false m hm (by simp) (by simpa using hrec)
  simpa [sbcompress] using h

theorem sbcompress_typedBytes (c : Counters) (rec m : List Mbuf) (hm : EorLast m) :
    typedBytes (sbcompress c rec m).2 = typedBytes rec ++ typedBytes m ∧
      (m.any (·.eor) = true → (sbcompress c rec m).2.getLast?.any (·.eor) = true) := by
  have h := compressLoop_typedBytes c rec.reverse false m hm (by simp)
  simpa [sbcompress] using h

theorem sbcompress_nothing {c : Counters} {m : List Mbuf} (h : stream m = []) : (sbcompress c [] m).2 = [] := by
  rw [sbcompress, List.reverse_nil]
  induction m with
  | nil => rfl
  | cons m ms ih =>
    simp only [stream_cons, List.append_eq_nil_iff, Mbuf.items, List.map_eq_nil_iff, ite_eq_right_iff, List.cons_ne_nil,
      imp_false, Bool.not_eq_true] at h
    obtain ⟨⟨hd, he⟩, hms⟩ := h
    rw [compressLoop]
    simpa [discards, hd, he] using ih hms

theorem queueOf_map_stream (ms : List Mbuf) (h : stream ms = [] → ms = []) :
    (queueOf ms).map stream = if stream ms = [] then [] else [stream ms] := by
  cases ms with
  | nil => rfl
  | cons m ms =>
    rw [if_neg (fun hn => by simpa using h hn)]
    rfl

/-! ## Appending -/

theorem startRecord_stream (c : Counters) (m0 : Mbuf) (m : List Mbuf) (hm : EorLast (m0 :: m)) :
    stream (startRecord c m0 m).2 = stream (m0 :: m) := by
  cases m with
  | nil => simp [startRecord, sbcompress, compressLoop, setEor, Mbuf.items]
  | cons m ms =>
    have he : m0.eor = false := by
      by_contra he
      simpa using hm.nil_of_eor (by simpa using he)
    rw [startRecord, if_neg (by simp [he]), sbcompress_stream _ _ _ hm.tail (by simp [he])]
    simp

theorem sbappendrecord_view (sb : Sockbuf) {m : List Mbuf} (hm : EorLast m) (hne : m ≠ []) :
    view (sbappendrecord sb m) = view sb ++ [stream m] := by
  obtain ⟨m0, m, rfl⟩ := List.exists_cons_of_ne_nil hne
  simp [sbappendrecord, view, startRecord_stream _ m0 m hm]

theorem sbappend_view (sb : Sockbuf) {m : List Mbuf} (hm : EorLast m) (hne : m ≠ []) :
    view (sbappend sb m) = extendLast (view sb) (stream m) := by
  have hv : (view sb).getLast? = sb.recs.getLast?.map stream := List.getLast?_map
  rw [sbappend, if_neg hne, extendLast, hv]
  rcases hl : sb.recs.getLast? with - | last
  · have hs := sbcompress_stream sb.toCounters [] m hm rfl
    simp only [stream_nil, List.nil_append] at hs
    simp only [view, Option.map_none]
    rw [queueOf_map_stream _ fun h => sbcompress_nothing (hs ▸ h), hs]
  · obtain ⟨front, hr⟩ := List.getLast?_eq_some_iff.1 hl
    simp only [Option.map_some, eor_mem_stream]
    split
    · exact sbappendrecord_view sb hm hne
    · rename_i he
      have hlast : last.getLast?.all (!·.eor) = true := by
        cases hx : last.getLast? with
        | none => rfl
        | some n =>
          simp only [Bool.not_eq_true, List.any_eq_false] at he
          simpa using he n (List.mem_of_getLast? hx)
      simp [view, hr, sbcompress_stream _ _ _ hm hlast]

/-! ## Dropping -/

theorem dropBytes_bytes {n : Nat} {t : MType} {bs : List Byte} (h : n < bs.length) (s : List Item) :
    dropBytes n (bs.map (.byte t) ++ s) = (bs.drop n).map (.byte t) ++ s := by
  induction bs generalizing n with
  | nil => simp at h
  | cons b bs ih =>
    cases n with
    | zero => rfl
    | succ n => exact ih (by simpa using h)

theorem dropBytes_items {n : Nat} (off : Nat) (h : n < m.len) (s : List Item) :
    dropBytes n (m.items ++ s) = Mbuf.items { m with data := m.data.drop n, off := off } ++ s := by
  rw [Mbuf.items, Mbuf.items, List.append_assoc, List.append_assoc]
  exact dropBytes_bytes h _

theorem freeEmpty_stream (c : Counters) (ms : List Mbuf) :
    stream (freeEmpty c ms).2 = dropBytes 0 (stream ms) ∧ ((freeEmpty c ms).2 = [] ↔ chainLen ms = 0) := by
  induction ms generalizing c with
  | nil => exact ⟨rfl, by simp [freeEmpty]⟩
  | cons m ms ih =>
    rw [freeEmpty, stream_cons, chainLen_cons]
    split
    · rename_i h0
      obtain ⟨hs, hnil⟩ := ih (sbfree c m)
      rw [dropBytes_append_of_le (by rw [byteCount_items, h0]), h0, Nat.zero_add]
      exact ⟨by simpa using hs, hnil⟩
    · rename_i h0
      refine ⟨?_, by simp [h0]⟩
      rw [dropBytes_items m.off (Nat.pos_of_ne_zero h0)]
      simp

/-- The first loop on one record, as far as the second one sees. -/
theorem dropMbufs_stream (c : Counters) (len : Nat) (ms : List Mbuf) :
    (dropMbufs c len ms).2.1 = len - chainLen ms ∧ chainLen (dropMbufs c len ms).2.2 = chainLen ms - len ∧
      dropBytes 0 (stream (dropMbufs c len ms).2.2) = dropBytes len (stream ms) := by
  induction ms generalizing c len with
  | nil => simp [dropMbufs, dropBytes]
  | cons m ms ih =>
    rw [dropMbufs]
    split
    · rename_i h0
      simp [h0]
    · split
      · rename_i hgt
        refine ⟨?_, ?_, ?_⟩
        · simp only [chainLen_cons]
          omega
        · simp only [chainLen_cons, Mbuf.len, List.length_drop] at hgt ⊢
          omega
        · rw [stream_cons, stream_cons, dropBytes_items (m.off + len) hgt,
            dropBytes_items (m.off + len) (by simpa [Mbuf.len] using hgt)]
          simp
      · rename_i hle
        obtain ⟨h₁, h₂, h₃⟩ := ih (sbfree c m) (len - m.len)
        refine ⟨by rw [h₁, chainLen_cons]; omega, by rw [h₂, chainLen_cons]; omega, ?_⟩
        rw [h₃, stream_cons, dropBytes_append_of_le (by rw [byteCount_items]; omega), byteCount_items]

theorem queueOf_stream_of_ne (h : ms ≠ []) : (queueOf ms).map stream = [stream ms] := by
  obtain ⟨m, ms, rfl⟩ := List.exists_cons_of_ne_nil h
  rfl

theorem dropMbufs_stops (c c' : Counters) (len : Nat) (m : List Mbuf) (next : List (List Mbuf)) (h : len ≤ chainLen m) :
    (queueOf (freeEmpty c' (dropMbufs c len m).2.2).2 ++ next).map stream =
      dropRecs len (stream m :: next.map stream) := by
  obtain ⟨-, hlen, hs⟩ := dropMbufs_stream c len m
  obtain ⟨hf, hnil⟩ := freeEmpty_stream c' (dropMbufs c len m).2.2
  rw [List.map_append, dropRecs, byteCount_stream]
  rcases Nat.lt_or_eq_of_le h with hlt | heq
  · rw [if_pos hlt, queueOf_stream_of_ne (by rw [Ne, hnil]; omega), hf, hs]
    rfl
  · rw [if_neg (by omega), if_pos heq, hnil.2 (by omega)]
    rfl

theorem dropLoop_view (c : Counters) (len : Nat) (m : List Mbuf) (next : List (List Mbuf))
    (h : len ≤ chainLen (m ++ next.flatten)) :
    ∃ c' m' next', dropLoop c len m next = some (c', m', next') ∧
      (queueOf (freeEmpty c' m').2 ++ next').map stream = dropRecs len (stream m :: next.map stream) := by
  have hstop : ∀ c len m next, len ≤ chainLen m →
      dropLoop c len m next = some ((dropMbufs c len m).1, (dropMbufs c len m).2.2, next) := by
    intro c len m next hle
    have h0 : (dropMbufs c len m).2.1 = 0 := by
      rw [(dropMbufs_stream c len m).1]
      omega
    rw [dropLoop.eq_def]
    simp [h0]
  induction next generalizing c len m with
  | nil =>
    have hle : len ≤ chainLen m := by simpa using h
    exact ⟨_, _, _, hstop c len m [] hle, dropMbufs_stops c _ len m [] hle⟩
  | cons rec next ih =>
    by_cases hle : len ≤ chainLen m
    · exact ⟨_, _, _, hstop c len m _ hle, dropMbufs_stops c _ len m _ hle⟩
    · obtain ⟨hl, -, -⟩ := dropMbufs_stream c len m
      rw [chainLen_append, List.flatten_cons] at h
      obtain ⟨c', m', next', hd, hv⟩ := ih (dropMbufs c len m).1 (len - chainLen m) rec (by omega)
      refine ⟨c', m', next', ?_, ?_⟩
      · rw [dropLoop, ← hd, ← hl]
        simp [hl, show len - chainLen m ≠ 0 by omega]
      · rw [hv, List.map_cons, dropRecs.eq_2 len, byteCount_stream, if_neg (by omega), if_neg (by omega)]

theorem sbdrop_view (sb : Sockbuf) (len : Nat) (h : len ≤ chainLen sb.mbufs) :
    ∃ sb', sbdrop sb len = some sb' ∧ view sb' = dropRecs len (view sb) := by
  have hm : sb.mbufs = sb.recs.headD [] ++ sb.recs.tail.flatten := by
    unfold Sockbuf.mbufs
    cases sb.recs <;> simp
  rw [hm] at h
  obtain ⟨c', m', next', hd, hv⟩ := dropLoop_view sb.toCounters len _ _ h
  refine ⟨{ sb with toCounters := (freeEmpty c' m').1, recs := queueOf (freeEmpty c' m').2 ++ next' }, ?_, ?_⟩
  · rw [sbdrop, hd]
    rfl
  · refine hv.trans ?_
    rw [view]
    cases hr : sb.recs with
    | nil =>
      simp only [hr, List.headD_nil, List.tail_nil, List.flatten_nil, List.append_nil, chainLen_nil, Nat.le_zero] at h
      simp [h, dropRecs, byteCount]
    | cons rec next => rfl

/-! ## Bytes -/

/-- The typed bytes of a record. -/
def bytesOf (s : List Item) : List (MType × Byte) :=
  s.filterMap fun
    | .byte t b => some (t, b)
    | .eor => none

theorem bytesOf_append (s t : List Item) : bytesOf (s ++ t) = bytesOf s ++ bytesOf t := List.filterMap_append

theorem bytesOf_length (s : List Item) : (bytesOf s).length = byteCount s := by
  induction s with
  | nil => rfl
  | cons x s ih => cases x <;> simp_all [bytesOf, byteCount]

theorem bytesOf_dropBytes (n : Nat) (s : List Item) : bytesOf (dropBytes n s) = (bytesOf s).drop n := by
  induction s generalizing n with
  | nil => simp [dropBytes, bytesOf]
  | cons x s ih =>
    cases x with
    | eor => exact ih n
    | byte =>
      cases n with
      | zero => rfl
      | succ n => exact ih n

theorem bytesOf_dropRecs (n : Nat) (q : List (List Item)) :
    bytesOf (dropRecs n q).flatten = (bytesOf q.flatten).drop n := by
  induction q generalizing n with
  | nil => simp [dropRecs, bytesOf]
  | cons s q ih =>
    have hlen := bytesOf_length s
    rw [List.flatten_cons, bytesOf_append, dropRecs]
    split
    · rw [List.flatten_cons, bytesOf_append, bytesOf_dropBytes, List.drop_append_of_le_length (by omega)]
    · split
      · rename_i heq
        rw [heq, ← hlen, List.drop_left]
      · rename_i hlt hne
        have hall : (bytesOf s).drop n = [] := List.drop_eq_nil_of_le (by omega)
        rw [ih, List.drop_append, hlen, hall, List.nil_append]

theorem bytesOf_stream (ms : List Mbuf) : bytesOf (stream ms) = typedBytes ms := by
  induction ms with
  | nil => rfl
  | cons m ms ih =>
    have hitems : bytesOf m.items = m.data.map (m.mtype, ·) := by
      unfold Mbuf.items
      rw [bytesOf_append]
      split <;> simp [bytesOf, List.filterMap_map]
    rw [stream_cons, bytesOf_append, ih, hitems]
    rfl

theorem stream_mbufs (sb : Sockbuf) : stream sb.mbufs = (view sb).flatten := by
  unfold Sockbuf.mbufs view
  induction sb.recs with
  | nil => rfl
  | cons rec next ih => simp [ih]

/-- On any socket buffer, with a chain whose `M_EOR` is on its last mbuf: the
stream of the chain is its typed bytes with the mark at their end; `sbappend`
extends the last record by it, or starts a record if the last one has a mark
(is marked at its end, if that is where its marks are); `sbappendrecord` starts
a record; `sbcompress` appends the bytes of the chain to those of the record and
leaves a mark at the end if the chain has one, whole streams if the record had
none; and `sbdrop` removes exactly the first bytes. -/
theorem sockbuf_refines (sb : Sockbuf) (m : List Mbuf) (hm : EorLast m) :
    stream m = (typedBytes m).map (fun x => .byte x.1 x.2) ++ (if m.any (·.eor) then [.eor] else []) ∧
      (sbappend sb [] = sb ∧ sbappendrecord sb [] = sb) ∧
      (m ≠ [] → view (sbappend sb m) = extendLast (view sb) (stream m) ∧
        view (sbappendrecord sb m) = view sb ++ [stream m]) ∧
      (∀ rec, EorLast rec → (Item.eor ∈ stream rec ↔ (stream rec).getLast? = some .eor)) ∧
      (∀ c rec, typedBytes (sbcompress c rec m).2 = typedBytes rec ++ typedBytes m ∧
        (m.any (·.eor) = true → (sbcompress c rec m).2.getLast?.any (·.eor) = true) ∧
        (rec.getLast?.all (!·.eor) = true → stream (sbcompress c rec m).2 = stream rec ++ stream m)) ∧
      ∀ len : Nat, len ≤ (typedBytes sb.recs.flatten).length → ∃ sb', sbdrop sb len = some sb' ∧
        view sb' = dropRecs len (view sb) ∧ typedBytes sb'.recs.flatten = (typedBytes sb.recs.flatten).drop len := by
  refine ⟨hm.stream_eq, ⟨rfl, rfl⟩, fun hne => ⟨sbappend_view sb hm hne, sbappendrecord_view sb hm hne⟩,
    fun rec hrec => hrec.mark_iff, fun c rec => ?_, fun len hlen => ?_⟩
  · obtain ⟨hb, he⟩ := sbcompress_typedBytes c rec m hm
    exact ⟨hb, he, sbcompress_stream c rec m hm⟩
  · have htotal : (typedBytes sb.recs.flatten).length = chainLen sb.mbufs := by
      rw [← bytesOf_stream, bytesOf_length, byteCount_stream]
      rfl
    obtain ⟨sb', hd, hv⟩ := sbdrop_view sb len (by omega)
    refine ⟨sb', hd, hv, ?_⟩
    have hbytes : ∀ sb : Sockbuf, typedBytes sb.recs.flatten = bytesOf (view sb).flatten := by
      intro sb
      rw [← stream_mbufs, bytesOf_stream]
      rfl
    rw [hbytes, hbytes, hv, bytesOf_dropRecs]

/-- Two small mbufs and an empty end of record go into one behind the record. -/
theorem sockbuf_refines_small :
    ∃ sb : Sockbuf, ∃ m : List Mbuf, EorLast m ∧ m.any (·.eor) = true ∧
      view (sbappend sb m) = [stream sb.recs.flatten ++ stream m] ∧
      ∃ sb', sbdrop (sbappend sb m) 2 = some sb' ∧ typedBytes sb'.recs.flatten = [(.data, 3), (.data, 4)] := by
  let sb : Sockbuf := ⟨⟨2, 128⟩, 8192, 16384, false, [[⟨[1, 2], 0, .data, false, none, none⟩]]⟩
  let m : List Mbuf := [⟨[3], 4, .data, false, none, none⟩, ⟨[4], 0, .data, false, none, none⟩,
    ⟨[], 0, .data, true, none, none⟩]
  have hm : EorLast m := by decide
  obtain ⟨-, -, happ, -⟩ := sockbuf_refines sb m hm
  obtain ⟨-, -, -, -, -, hdrop⟩ := sockbuf_refines (sbappend sb m) m hm
  obtain ⟨sb', hd, -, hb⟩ := hdrop 2 (by decide)
  exact ⟨sb, m, hm, rfl, by rw [(happ (by decide)).1]; decide, sb', hd, by rw [hb]; decide⟩

end BsdKernel.Socket
