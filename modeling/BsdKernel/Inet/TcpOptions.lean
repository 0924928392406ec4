import BsdKernel.Lib.Bytes
import Mathlib.Tactic
/-!
# TCP options

`tcp_dooptions` of `inet/tcp_input.c` over the options that `tcp_input` copies to the
mbuf `om`: `area` are its `m_len` bytes and `rest` is the memory behind them. The loop
reads the length of an option before it knows that there is one, and trusts it.

What the loop does depends on the bytes it reads alone (`optLoop_agree`), so the two
parts of `Independent` are one question: whether all of them are in the area.
`dooptions_iff` answers it by where the options begin.
-/

namespace BsdKernel.TcpOptions

open BsdKernel.Lib

def TCPOPT_EOL : Byte := 0
def TCPOPT_NOP : Byte := 1
def TCPOPT_MAXSEG : Byte := 2

/-! ## The loop -/

/-- A turn: the offsets it reads, `optlen` unless it breaks, and what it gives to `tcp_mss`. -/
structure Turn where
  reads : List Nat
  optlen : Option Nat
  mss : Option (BitVec 16)
  deriving DecidableEq, Repr

/-- The body of the loop at `cp`; `syn` is `TH_SYN`. -/
def turn (om : Nat → Byte) (syn : Bool) (cp : Nat) : Turn :=
  if om cp = TCPOPT_EOL then ⟨[cp], none, none⟩
  else if om cp = TCPOPT_NOP then ⟨[cp], some 1, none⟩
  else if om (cp + 1) = 0 then ⟨[cp, cp + 1], none, none⟩
  else if om cp = TCPOPT_MAXSEG ∧ om (cp + 1) = 4 ∧ syn then
    ⟨[cp, cp + 1, cp + 2, cp + 3], some 4, some (om (cp + 2) ++ om (cp + 3))⟩
  else ⟨[cp, cp + 1], some (om (cp + 1)).toNat, none⟩

/-- What the loop has done: its turns, the offsets it read, and the sizes it gave to `tcp_mss`. -/
structure Parsed where
  turns : Nat
  reads : List Nat
  offers : List (BitVec 16)
  deriving DecidableEq, Repr

/-- The turns after one that goes on. -/
def Parsed.after (t : Turn) (p : Parsed) : Parsed := ⟨p.turns + 1, t.reads ++ p.reads, t.mss.toList ++ p.offers⟩

/-- The loop with `cnt` bytes left, for at most so many turns. -/
def optLoop (om : Nat → Byte) (syn : Bool) : Nat → Nat → Nat → Option Parsed
  | 0, _, cnt => if cnt = 0 then some ⟨0, [], []⟩ else none
  | fuel + 1, cp, cnt =>
    if cnt = 0 then some ⟨0, [], []⟩
    else match (turn om syn cp).optlen with
      | none => some ⟨1, (turn om syn cp).reads, []⟩
      | some optlen => (optLoop om syn fuel (cp + optlen) (cnt - optlen)).map (Parsed.after (turn om syn cp))

/-- The data of `om`: the options, and what is behind them. -/
def optMbuf (area : List Byte) (rest : Nat → Byte) : Nat → Byte := fun k => area.getD k (rest k)

def tcpDooptions (area : List Byte) (rest : Nat → Byte) (syn : Bool) : Option Parsed :=
  optLoop (optMbuf area rest) syn area.length 0 area.length

/-! ## Where the options begin -/

/-- An option begins at the offset. -/
inductive Starts (area : List Byte) : Nat → Prop where
  | first : Starts area 0
  | nop {k : Nat} : Starts area k → area[k]? = some TCPOPT_NOP → Starts area (k + 1)
  | next {k : Nat} {opt optlen : Byte} : Starts area k → area[k]? = some opt → opt ≠ TCPOPT_EOL → opt ≠ TCPOPT_NOP →
      area[k + 1]? = some optlen → optlen ≠ 0 → Starts area (k + optlen.toNat)

/-- Each option but `TCPOPT_EOL` and `TCPOPT_NOP` has its length in the area, and one that goes to `tcp_mss` all of
its four bytes. -/
def Complete (area : List Byte) (syn : Bool) : Prop :=
  ∀ k opt, Starts area k → area[k]? = some opt → opt ≠ TCPOPT_EOL → opt ≠ TCPOPT_NOP →
    ∃ optlen, area[k + 1]? = some optlen ∧
      (opt = TCPOPT_MAXSEG → optlen = 4 → syn = true → k + 4 ≤ area.length)

/-- The sizes given to `tcp_mss` are the same whatever is behind the options, only the options are read, and the loop
ends within `m_len` turns. -/
structure Independent (area : List Byte) (syn : Bool) : Prop where
  same : ∀ rest rest', (tcpDooptions area rest syn).map (·.offers) = (tcpDooptions area rest' syn).map (·.offers)
  inside : ∀ rest p, tcpDooptions area rest syn = some p → ∀ a ∈ p.reads, a < area.length
  ends : ∀ rest, ∃ p, tcpDooptions area rest syn = some p ∧ p.turns ≤ area.length

/-! ## What the loop depends on -/

section Loop
variable {om om' : Nat → Byte} {syn : Bool} {cp cnt fuel : Nat} {p : Parsed}

theorem turn_optlen_pos {n : Nat} (h : (turn om syn cp).optlen = some n) : 0 < n := by
  unfold turn at h
  split_ifs at h with h0 h1 h2 h3
  · obtain rfl := Option.some.inj h
    exact Nat.one_pos
  · obtain rfl := Option.some.inj h
    exact Nat.succ_pos 3
  · obtain rfl := Option.some.inj h
    exact Nat.pos_of_ne_zero fun hz => h2 (BitVec.eq_of_toNat_eq hz)

theorem optLoop_zero (om : Nat → Byte) (syn : Bool) (fuel cp : Nat) : optLoop om syn fuel cp 0 = some ⟨0, [], []⟩ := by
  cases fuel <;> rfl

theorem optLoop_next {n : Nat} (hc : cnt ≠ 0) (h : (turn om syn cp).optlen = some n) :
    optLoop om syn (fuel + 1) cp cnt =
      (optLoop om syn fuel (cp + n) (cnt - n)).map (Parsed.after (turn om syn cp)) := by
  rw [optLoop, if_neg hc, h]

theorem optLoop_break (hc : cnt ≠ 0) (h : (turn om syn cp).optlen = none) :
    optLoop om syn (fuel + 1) cp cnt = some ⟨1, (turn om syn cp).reads, []⟩ := by
  rw [optLoop, if_neg hc, h]

/-- The loop ends: each turn takes a byte at least. -/
theorem optLoop_ends (h : cnt ≤ fuel) : ∃ p, optLoop om syn fuel cp cnt = some p ∧ p.turns ≤ cnt := by
  induction fuel generalizing cp cnt with
  | zero =>
    obtain rfl := Nat.le_zero.1 h
    exact ⟨_, rfl, Nat.le_refl 0⟩
  | succ fuel ih =>
    by_cases hc : cnt = 0
    · rw [hc, optLoop_zero]
      exact ⟨_, rfl, Nat.zero_le _⟩
    · cases ho : (turn om syn cp).optlen with
      | none => exact ⟨_, optLoop_break hc ho, Nat.one_le_iff_ne_zero.2 hc⟩
      | some n =>
        have hn := turn_optlen_pos ho
        obtain ⟨p, hp, hle⟩ := @ih (cp + n) (cnt - n) (by omega)
        refine ⟨p.after (turn om syn cp), by rw [optLoop_next hc ho, hp]; rfl, ?_⟩
        simp only [Parsed.after]
        omega

/-- A turn depends on the bytes it reads. -/
theorem turn_agree (h : ∀ a ∈ (turn om syn cp).reads, om' a = om a) : turn om' syn cp = turn om syn cp := by
  have hcp : om' cp = om cp := by
    apply h
    unfold turn
    split_ifs <;> simp
  by_cases h0 : om cp = TCPOPT_EOL
  · simp only [turn, hcp, if_pos h0]
  by_cases h1 : om cp = TCPOPT_NOP
  · simp only [turn, hcp, if_neg h0, if_pos h1]
  have hlen : om' (cp + 1) = om (cp + 1) := by
    apply h
    simp only [turn, if_neg h0, if_neg h1]
    split_ifs <;> simp
  by_cases h2 : om (cp + 1) = 0
  · simp only [turn, hcp, hlen, if_neg h0, if_neg h1, if_pos h2]
  by_cases h3 : om cp = TCPOPT_MAXSEG ∧ om (cp + 1) = 4 ∧ syn
  · simp only [turn, if_neg h0, if_neg h1, if_neg h2, if_pos h3] at h
    simp only [turn, hcp, hlen, if_neg h0, if_neg h1, if_neg h2, if_pos h3, h (cp + 2) (by simp), h (cp + 3) (by simp)]
  · simp only [turn, hcp, hlen, if_neg h0, if_neg h1, if_neg h2, if_neg h3]

theorem optLoop_agree (hp : optLoop om syn fuel cp cnt = some p) (h : ∀ a ∈ p.reads, om' a = om a) :
    optLoop om' syn fuel cp cnt = some p := by
  induction fuel generalizing cp cnt p with
  | zero => exact hp
  | succ fuel ih =>
    by_cases hc : cnt = 0
    · rwa [hc, optLoop_zero] at hp ⊢
    · cases ho : (turn om syn cp).optlen with
      | none =>
        rw [optLoop_break hc ho] at hp
        obtain rfl := Option.some.inj hp
        rw [optLoop_break hc (by rw [turn_agree h, ho]), turn_agree h]
      | some n =>
        rw [optLoop_next hc ho] at hp
        obtain ⟨q, hq, rfl⟩ := Option.map_eq_some_iff.1 hp
        have ht : turn om' syn cp = turn om syn cp := turn_agree fun a ha => h a (List.mem_append_left _ ha)
        have hl := ih hq fun a ha => h a (List.mem_append_right _ ha)
        rw [optLoop_next hc (by rw [ht, ho]), hl, ht]
        rfl

end Loop

/-! ## What is read -/

section Area
variable {area : List Byte} {rest rest' : Nat → Byte} {syn : Bool} {k fuel : Nat} {p : Parsed}

theorem optMbuf_of_get (rest : Nat → Byte) {b : Byte} (h : area[k]? = some b) : optMbuf area rest k = b := by
  simp [optMbuf, List.getD, h]

theorem get_of_lt (rest : Nat → Byte) (h : k < area.length) : area[k]? = some (optMbuf area rest k) := by
  simp [optMbuf, List.getD, h]

theorem lt_of_get {b : Byte} (h : area[k]? = some b) : k < area.length := (List.getElem?_eq_some_iff.1 h).1

theorem optMbuf_inside (h : k < area.length) : optMbuf area rest' k = optMbuf area rest k := by
  rw [optMbuf_of_get rest' (get_of_lt rest h)]

/-- Where an option begins, a turn reads inside the area and goes to where the next one begins. -/
theorem turn_complete (rest : Nat → Byte) (hc : Complete area syn) (hs : Starts area k) (hk : k < area.length) :
    (∀ a ∈ (turn (optMbuf area rest) syn k).reads, a < area.length) ∧
      ∀ n, (turn (optMbuf area rest) syn k).optlen = some n → Starts area (k + n) := by
  have hget := get_of_lt rest hk
  by_cases h0 : optMbuf area rest k = TCPOPT_EOL
  · simp only [turn, if_pos h0]
    exact ⟨by simpa using hk, fun _ h => by cases h⟩
  by_cases h1 : optMbuf area rest k = TCPOPT_NOP
  · simp only [turn, if_neg h0, if_pos h1]
    refine ⟨by simpa using hk, fun n hn => ?_⟩
    obtain rfl := Option.some.inj hn
    exact hs.nop (by rw [hget, h1])
  obtain ⟨optlen, hlen, hmax⟩ := hc k _ hs hget h0 h1
  have hk1 := lt_of_get hlen
  have hl := optMbuf_of_get rest hlen
  by_cases h2 : optMbuf area rest (k + 1) = 0
  · simp only [turn, if_neg h0, if_neg h1, if_pos h2]
    exact ⟨by simp [hk, hk1], fun _ h => by cases h⟩
  have hnext := hs.next hget h0 h1 hlen (by rwa [hl] at h2)
  by_cases h3 : optMbuf area rest k = TCPOPT_MAXSEG ∧ optMbuf area rest (k + 1) = 4 ∧ syn
  · simp only [turn, if_neg h0, if_neg h1, if_neg h2, if_pos h3]
    have h4 : optlen = 4 := by rw [← hl, h3.2.1]
    have hroom := hmax h3.1 h4 h3.2.2
    refine ⟨?_, fun n hn => ?_⟩
    · intro a ha
      simp only [List.mem_cons, List.not_mem_nil, or_false] at ha
      omega
    · obtain rfl := Option.some.inj hn
      rwa [h4] at hnext
  · simp only [turn, if_neg h0, if_neg h1, if_neg h2, if_neg h3]
    refine ⟨by simp [hk, hk1], fun n hn => ?_⟩
    obtain rfl := Option.some.inj hn
    rwa [hl]

/-- The loop from an option on reads inside the area. -/
theorem optLoop_inside (hc : Complete area syn) (hs : Starts area k)
    (hp : optLoop (optMbuf area rest) syn fuel k (area.length - k) = some p) : ∀ a ∈ p.reads, a < area.length := by
  induction fuel generalizing k p with
  | zero =>
    rw [optLoop] at hp
    split_ifs at hp
    obtain rfl := Option.some.inj hp
    simp
  | succ fuel ih =>
    by_cases hz : area.length - k = 0
    · rw [hz, optLoop_zero] at hp
      obtain rfl := Option.some.inj hp
      simp
    · obtain ⟨hreads, hnext⟩ := turn_complete rest hc hs (by omega)
      cases ho : (turn (optMbuf area rest) syn k).optlen with
      | none =>
        rw [optLoop_break hz ho] at hp
        obtain rfl := Option.some.inj hp
        exact hreads
      | some n =>
        rw [optLoop_next hz ho, Nat.sub_sub] at hp
        obtain ⟨q, hq, rfl⟩ := Option.map_eq_some_iff.1 hp
        intro a ha
        obtain ha | ha := List.mem_append.1 ha
        · exact hreads a ha
        · exact ih (hnext n ho) hq a ha

/-- The loop comes to each place where an option begins. -/
theorem optLoop_visits (hp : tcpDooptions area rest syn = some p) (hs : Starts area k) :
    ∃ fuel q, optLoop (optMbuf area rest) syn fuel k (area.length - k) = some q ∧ ∀ a ∈ q.reads, a ∈ p.reads := by
  have hstep : ∀ {j n : Nat}, j < area.length → (turn (optMbuf area rest) syn j).optlen = some n →
      (∃ fuel q, optLoop (optMbuf area rest) syn fuel j (area.length - j) = some q ∧ ∀ a ∈ q.reads, a ∈ p.reads) →
      ∃ fuel q, optLoop (optMbuf area rest) syn fuel (j + n) (area.length - (j + n)) = some q ∧
        ∀ a ∈ q.reads, a ∈ p.reads := by
    rintro j n hj ho ⟨fuel, q, hq, hsub⟩
    obtain _ | fuel := fuel
    · rw [optLoop, if_neg (by omega)] at hq
      cases hq
    · rw [optLoop_next (by omega) ho, Nat.sub_sub] at hq
      obtain ⟨r, hr, rfl⟩ := Option.map_eq_some_iff.1 hq
      exact ⟨fuel, r, hr, fun a ha => hsub a (List.mem_append_right _ ha)⟩
  induction hs with
  | first => exact ⟨area.length, p, hp, fun a ha => ha⟩
  | nop hs hget ih =>
    have hm := optMbuf_of_get rest hget
    refine hstep (lt_of_get hget) ?_ ih
    rw [turn, if_neg (by rw [hm]; decide), if_pos hm]
  | next hs hget h0 h1 hlen h2 ih =>
    have hm := optMbuf_of_get rest hget
    have hl := optMbuf_of_get rest hlen
    refine hstep (lt_of_get hget) ?_ ih
    rw [turn, hm, hl, if_neg h0, if_neg h1, if_neg h2]
    split_ifs with h3
    · rw [h3.2.1]
      rfl
    · rfl

/-- If the loop reads inside the area the options in it are complete. -/
theorem complete_of_inside (hp : tcpDooptions area rest syn = some p) (hin : ∀ a ∈ p.reads, a < area.length) :
    Complete area syn := by
  intro k opt hs hget h0 h1
  have hk := lt_of_get hget
  have hm := optMbuf_of_get rest hget
  obtain ⟨fuel, q, hq, hsub⟩ := optLoop_visits hp hs
  have hturn : ∀ a ∈ (turn (optMbuf area rest) syn k).reads, a ∈ q.reads := by
    obtain _ | fuel := fuel
    · rw [optLoop, if_neg (by omega)] at hq
      cases hq
    · cases ho : (turn (optMbuf area rest) syn k).optlen with
      | none =>
        rw [optLoop_break (by omega) ho] at hq
        obtain rfl := Option.some.inj hq
        exact fun a ha => ha
      | some n =>
        rw [optLoop_next (by omega) ho] at hq
        obtain ⟨r, -, rfl⟩ := Option.map_eq_some_iff.1 hq
        exact fun a ha => List.mem_append_left _ ha
  have hread := fun a ha => hin a (hsub a (hturn a ha))
  have hk1 : k + 1 < area.length := by
    apply hread
    rw [turn, hm, if_neg h0, if_neg h1]
    split_ifs <;> simp
  have hget1 := get_of_lt rest hk1
  refine ⟨_, hget1, fun hmax h4 hsyn => ?_⟩
  have hlast : k + 3 < area.length := by
    apply hread
    rw [turn, hm, if_neg h0, if_neg h1, if_neg (by rw [h4]; decide), if_pos ⟨hmax, h4, hsyn⟩]
    simp
  omega

end Area

/-! ## The options alone -/

/-- The loop always ends, and it depends on the options alone exactly if they are complete. -/
theorem dooptions_iff (area : List Byte) (syn : Bool) :
    (Independent area syn ↔ Complete area syn) ∧
      ∀ rest, ∃ p, tcpDooptions area rest syn = some p ∧ p.turns ≤ area.length := by
  have hends : ∀ rest, ∃ p, tcpDooptions area rest syn = some p ∧ p.turns ≤ area.length :=
    fun rest => optLoop_ends (Nat.le_refl _)
  refine ⟨⟨?_, ?_⟩, hends⟩
  · intro h
    obtain ⟨p, hp, -⟩ := hends fun _ => 0
    exact complete_of_inside hp (h.inside _ p hp)
  · intro h
    have hinside : ∀ rest p, tcpDooptions area rest syn = some p → ∀ a ∈ p.reads, a < area.length :=
      fun rest p hp => optLoop_inside h .first hp
    refine ⟨fun rest rest' => ?_, hinside, hends⟩
    obtain ⟨p, hp, -⟩ := hends rest
    have hp' : tcpDooptions area rest' syn = some p :=
      optLoop_agree hp fun a ha => optMbuf_inside (hinside rest p hp a ha)
    rw [hp, hp']

/-- An MSS option cut behind its kind: the size is taken from behind the options. -/
theorem dooptions_cut :
    ¬ ∀ (area : List Byte) (rest rest' : Nat → Byte) (syn : Bool),
      (tcpDooptions area rest syn).map (·.offers) = (tcpDooptions area rest' syn).map (·.offers) := by
  intro h
  exact absurd (h [1, 1, 1, 2] (fun _ => 4) (fun _ => 0) true) (by decide)

end BsdKernel.TcpOptions
