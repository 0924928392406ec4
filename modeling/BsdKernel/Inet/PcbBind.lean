import BsdKernel.Inet.Pcb
import Mathlib.Tactic
/-!
# Picking a port

The search of `in_pcbbind` for a free port. Its counter goes around the ports from
`IPPORT_RESERVED` to `IPPORT_USERRESERVED`, and the search ends when `in_pcblookup`
finds no pcb that conflicts.

From any value of the counter each of these ports comes up within `portTurns` turns
(`nextPort_reaches`). Port 0 comes up behind 65535, but the pcb that is being bound
conflicts with it. So the search ends exactly if a port is free (`in_pcbbind_iff`);
otherwise it goes around for ever.
-/

namespace BsdKernel.Inet

variable (s : Pcbs) (ifs : Ifs) (inp : Inpcb)

/-- From `IPPORT_RESERVED` to `IPPORT_USERRESERVED`. -/
def InRange (p : BitVec 16) : Prop := IPPORT_RESERVED ≤ p ∧ p ≤ IPPORT_USERRESERVED

instance (p : BitVec 16) : Decidable (InRange p) := inferInstanceAs (Decidable (_ ∧ _))

/-- The local address that is asked for. -/
def localAddr (nam : Option SockaddrIn) : InAddr := (nam.map (·.addr)).getD inp.tuple.laddr

/-- No port is given. -/
def NoPort (nam : Option SockaddrIn) : Prop := ∀ sin, nam = some sin → sin.port = 0

/-- The checks of `in_pcbbind` before the search are passed. -/
def Searches (nam : Option SockaddrIn) : Prop :=
  ifs.inIfaddr ≠ [] ∧ inp.tuple.lport = 0 ∧ inp.tuple.laddr = INADDR_ANY ∧
    ∀ sin, nam = some sin → sin.lenOk = true ∧ (sin.addr = INADDR_ANY ∨ ifs.ifwithaddr sin.addr = true)

/-- The pcbs once `inp_laddr` is set. -/
def Pcbs.withLaddr (laddr : InAddr) : Pcbs :=
  s.update inp.id fun inp => { inp with tuple := { inp.tuple with laddr := laddr } }

/-- `in_pcblookup` finds a pcb that conflicts with the port. -/
def Conflicts (laddr : InAddr) (p : BitVec 16) : Prop := (s.withLaddr inp laddr).taken laddr (s.wild inp.so) p = true

/-- A free port of the range is assigned; or an error is returned, and no search was made or no port is free. -/
def Bound (nam : Option SockaddrIn) (r : Except Errno (Option Pcbs)) : Prop :=
  (∃ e, r = .error e ∧ (¬Searches ifs inp nam ∨ ∀ p, InRange p → Conflicts s inp (localAddr inp nam) p)) ∨
    ∃ p, InRange p ∧ ¬Conflicts s inp (localAddr inp nam) p ∧
      r = .ok (some ({ s with headLport := p }.update inp.id fun inp' =>
        { inp' with tuple := { inp'.tuple with laddr := localAddr inp nam, lport := htons p } }))

/-! ## The counter -/

theorem nextPort_toNat (p : BitVec 16) :
    (nextPort p).toNat = if p.toNat < 1024 ∨ 5000 < (p.toNat + 1) % 65536 then 1024 else (p.toNat + 1) % 65536 := by
  simp only [nextPort, IPPORT_RESERVED, IPPORT_USERRESERVED, BitVec.lt_def, gt_iff_lt, BitVec.toNat_add]
  split_ifs with h h' h'
  · rfl
  · exact absurd h h'
  · exact absurd h' h
  · rfl

theorem inRange_iff {p : BitVec 16} : InRange p ↔ 1024 ≤ p.toNat ∧ p.toNat ≤ 5000 := Iff.rfl

/-- A turn gives a port of the range, but 0 behind 65535. -/
theorem nextPort_range (p : BitVec 16) : InRange (nextPort p) ∨ nextPort p = 0 ∧ InRange (nextPort (nextPort p)) := by
  have hn := nextPort_toNat p
  have hp := p.isLt
  split_ifs at hn with h
  · left
    rw [inRange_iff]
    omega
  · by_cases hz : p.toNat = 65535
    · right
      have h0 : nextPort p = 0 := BitVec.eq_of_toNat_eq (by rw [hn, hz]; rfl)
      rw [h0]
      exact ⟨rfl, by decide⟩
    · left
      rw [inRange_iff]
      omega

theorem nextPort_iterate_range {p : BitVec 16} (hp : InRange p) (m : Nat) :
    (nextPort^[m] p).toNat = 1024 + (p.toNat - 1024 + m) % 3977 := by
  rw [inRange_iff] at hp
  induction m with
  | zero => simp only [Function.iterate_zero, id, Nat.add_zero]; omega
  | succ m ih =>
    rw [Function.iterate_succ_apply', nextPort_toNat, ih]
    split_ifs <;> omega

theorem nextPort_reaches (h : BitVec 16) {p : BitVec 16} (hp : InRange p) :
    ∃ j < portTurns, nextPort^[j + 1] h = p := by
  have hto : ∀ q, InRange q → ∃ m < 3977, nextPort^[m] q = p := by
    intro q hq
    have hq' := inRange_iff.1 hq
    have hp' := inRange_iff.1 hp
    refine ⟨(p.toNat + 3977 - q.toNat) % 3977, Nat.mod_lt _ (by omega), BitVec.eq_of_toNat_eq ?_⟩
    rw [nextPort_iterate_range hq]
    omega
  obtain hr | ⟨-, hr⟩ := nextPort_range h
  · obtain ⟨m, hm, he⟩ := hto _ hr
    exact ⟨m, by unfold portTurns; omega, he⟩
  · obtain ⟨m, hm, he⟩ := hto _ hr
    exact ⟨m + 1, by unfold portTurns; omega, he⟩

/-- Every turn gives a port of the range or 0. -/
theorem nextPort_iterate_cases (h : BitVec 16) (j : Nat) :
    InRange (nextPort^[j + 1] h) ∨ nextPort^[j + 1] h = 0 := by
  rw [Function.iterate_succ_apply']
  obtain hr | ⟨hz, -⟩ := nextPort_range (nextPort^[j] h)
  · exact Or.inl hr
  · exact Or.inr hz

/-! ## The search -/

section Search
variable {s inp} {laddr : InAddr} {wild : Bool}

/-- The search ends at the first port that is free. -/
theorem pickPort_isSome {n : Nat} {h : BitVec 16} (hf : ∃ j < n, s.taken laddr wild (nextPort^[j + 1] h) = false) :
    ∃ p, pickPort s laddr wild n h = some p := by
  induction n generalizing h with
  | zero =>
    obtain ⟨j, hj, -⟩ := hf
    omega
  | succ n ih =>
    rw [pickPort]
    split_ifs with ht
    · obtain ⟨j, hj, hfree⟩ := hf
      obtain _ | j := j
      · rw [show nextPort^[0 + 1] h = nextPort h from rfl, ht] at hfree
        cases hfree
      · exact ih ⟨j, by omega, hfree⟩
    · exact ⟨_, rfl⟩

theorem pickPort_free {n : Nat} {h p : BitVec 16} (hp : pickPort s laddr wild n h = some p) :
    s.taken laddr wild p = false ∧ (InRange p ∨ p = 0) := by
  obtain ⟨k, rfl, hturns⟩ := pickPort_spec hp
  exact ⟨by simpa using hturns k (Nat.le_refl k), nextPort_iterate_cases h k⟩

/-- The pcb itself has the address and port 0. -/
theorem taken_zero (hinp : inp ∈ s.pcbs) (hp : inp.tuple.lport = 0) (hf : inp.tuple.faddr = INADDR_ANY) :
    (s.withLaddr inp laddr).taken laddr wild 0 = true := by
  have hmem : ({ inp with tuple := { inp.tuple with laddr := laddr } } : Inpcb) ∈ (s.withLaddr inp laddr).pcbs := by
    have h := List.mem_map_of_mem (f := fun x : Inpcb => if x.id = inp.id then
      { x with tuple := { x.tuple with laddr := laddr } } else x) hinp
    rwa [if_pos rfl] at h
  have hw : wildcards ⟨INADDR_ANY, 0, laddr, htons 0⟩ { inp.tuple with laddr := laddr } = some 0 := by
    have hz : htons 0 = inp.tuple.lport := by rw [hp]; decide
    rw [hz]
    unfold wildcards
    by_cases hl : laddr = INADDR_ANY
    · simp [hf, hl]
    · simp [hf, hl]
  have hspec := inPcblookup_spec (s.withLaddr inp laddr).pcbs ⟨INADDR_ANY, 0, laddr, htons 0⟩ wild
  rw [Pcbs.taken]
  cases hl : inPcblookup (s.withLaddr inp laddr).pcbs ⟨INADDR_ANY, 0, laddr, htons 0⟩ wild with
  | some x => rfl
  | none =>
    rw [hl] at hspec
    exact absurd rfl (hspec _ hmem 0 hw).1

end Search

/-! ## The call -/

section Call
variable {s ifs inp} {nam : Option SockaddrIn} {priv : Bool}

/-- Once the checks are passed only the search is left. -/
theorem inPcbbind_searches (hn : NoPort nam) (hs : Searches ifs inp nam) :
    inPcbbind s ifs inp nam priv = .ok (bindPort s inp (localAddr inp nam) 0) := by
  obtain ⟨hif, hport, haddr, hnam⟩ := hs
  unfold inPcbbind
  rw [if_neg hif, if_neg (by simp [hport, haddr])]
  cases nam with
  | none => rfl
  | some sin =>
    obtain ⟨hlen, hsin⟩ := hnam sin rfl
    have hz := hn sin rfl
    have ha : ¬(sin.addr ≠ INADDR_ANY ∧ ifs.ifwithaddr sin.addr = false) := by
      rintro ⟨hne, hf⟩
      obtain h | h := hsin
      · exact hne h
      · rw [h] at hf
        cases hf
    simp only
    rw [if_neg (by simp [hlen]), if_neg ha, if_neg (fun h => h.1 hz), if_neg (fun h => h.1 hz), hz]
    rfl

theorem inPcbbind_refuses (s : Pcbs) (priv : Bool) (hs : ¬Searches ifs inp nam) : ∃ e, inPcbbind s ifs inp nam priv = .error e := by
  unfold inPcbbind
  split_ifs with hif hset
  · exact ⟨_, rfl⟩
  · exact ⟨_, rfl⟩
  · rw [not_or, not_not, not_not] at hset
    cases nam with
    | none => exact absurd ⟨hif, hset.1, hset.2, by simp⟩ hs
    | some sin =>
      simp only
      split_ifs with hlen ha
      · exact ⟨_, rfl⟩
      · exact ⟨_, rfl⟩
      all_goals
        refine absurd ⟨hif, hset.1, hset.2, ?_⟩ hs
        rintro _ ⟨⟩
        grind

theorem pickPort_spins (hinp : inp ∈ s.pcbs) (hp : inp.tuple.lport = 0) (hf : inp.tuple.faddr = INADDR_ANY)
    {laddr : InAddr} (hall : ∀ p, InRange p → Conflicts s inp laddr p) (turns : Nat) :
    pickPort (s.withLaddr inp laddr) laddr (s.wild inp.so) turns s.headLport = none := by
  by_contra hsome
  obtain ⟨p, hp'⟩ := Option.ne_none_iff_exists'.1 hsome
  obtain ⟨hfree, hr | rfl⟩ := pickPort_free hp'
  · rw [hall p hr] at hfree
    cases hfree
  · rw [taken_zero hinp hp hf] at hfree
    cases hfree

theorem bindPort_zero (laddr : InAddr) : bindPort s inp laddr 0 =
    (pickPort (s.withLaddr inp laddr) laddr (s.wild inp.so) portTurns s.headLport).map fun p =>
      { s.withLaddr inp laddr with headLport := p }.update inp.id
        fun inp => { inp with tuple := { inp.tuple with lport := htons p } } := rfl

theorem bindPort_free (hinp : inp ∈ s.pcbs) (hp : inp.tuple.lport = 0) (hf : inp.tuple.faddr = INADDR_ANY)
    {laddr : InAddr} (hfree : ∃ p, InRange p ∧ ¬Conflicts s inp laddr p) :
    ∃ p, InRange p ∧ ¬Conflicts s inp laddr p ∧ bindPort s inp laddr 0 =
      some ({ s with headLport := p }.update inp.id fun inp' =>
        { inp' with tuple := { inp'.tuple with laddr := laddr, lport := htons p } }) := by
  obtain ⟨p, hr, hp'⟩ := hfree
  obtain ⟨j, hj, rfl⟩ := nextPort_reaches s.headLport hr
  obtain ⟨q, hq⟩ := pickPort_isSome ⟨j, hj, by simpa [Conflicts] using hp'⟩
  obtain ⟨hqfree, hqr | rfl⟩ := pickPort_free hq
  · refine ⟨q, hqr, by simpa [Conflicts] using hqfree, ?_⟩
    rw [bindPort_zero, hq, Option.map_some, Pcbs.withLaddr, update_local]
  · rw [taken_zero hinp hp hf] at hqfree
    cases hqfree

/-- With no port given the pcb is bound to a free port of the range, unless an error is returned before the search,
exactly if there is one. If there is none, the search goes on after any number of turns. -/
theorem in_pcbbind_iff (s : Pcbs) (ifs : Ifs) (inp : Inpcb) (nam : Option SockaddrIn) (priv : Bool)
    (hinp : inp ∈ s.pcbs) (hf : inp.tuple.lport = 0 → inp.tuple.faddr = INADDR_ANY) (hn : NoPort nam) :
    (Bound s ifs inp nam (inPcbbind s ifs inp nam priv) ↔
        ¬Searches ifs inp nam ∨ ∃ p, InRange p ∧ ¬Conflicts s inp (localAddr inp nam) p) ∧
      (Searches ifs inp nam → (∀ p, InRange p → Conflicts s inp (localAddr inp nam) p) →
        ∀ turns, pickPort (s.withLaddr inp (localAddr inp nam)) (localAddr inp nam) (s.wild inp.so) turns s.headLport =
          none) := by
  refine ⟨⟨?_, ?_⟩, fun hs hall => pickPort_spins hinp hs.2.1 (hf hs.2.1) hall⟩
  · rintro (⟨e, he, -⟩ | ⟨p, hr, hfree, -⟩)
    · left
      intro hs
      rw [inPcbbind_searches hn hs] at he
      cases he
    · exact Or.inr ⟨p, hr, hfree⟩
  · intro h
    by_cases hs : Searches ifs inp nam
    · obtain h | hfree := h
      · exact absurd hs h
      · obtain ⟨p, hr, hp, hb⟩ := bindPort_free hinp hs.2.1 (hf hs.2.1) hfree
        exact Or.inr ⟨p, hr, hp, by rw [inPcbbind_searches hn hs, hb]⟩
    · obtain ⟨e, he⟩ := inPcbbind_refuses s priv hs
      exact Or.inl ⟨e, he, Or.inl hs⟩

end Call

/-! ## A free range and a full one -/

/-- A pcb with no addresses. -/
def unbound : Inpcb := ⟨0, ⟨INADDR_ANY, 0, INADDR_ANY, 0⟩, plain⟩

theorem in_pcbbind_wraps :
    Bound ⟨false, 65535, [unbound], .head⟩ lan unbound none
      (inPcbbind ⟨false, 65535, [unbound], .head⟩ lan unbound none false) := by
  refine (in_pcbbind_iff _ lan unbound none false (List.mem_singleton.2 rfl) (fun _ => rfl) (fun _ h => by cases h)).1.2
    (Or.inr ⟨1024, by decide, ?_⟩)
  unfold Conflicts
  decide

/-- A pcb at every port of the range. -/
def fullRange : List Inpcb :=
  (List.range 3977).map fun k => ⟨k + 1, ⟨INADDR_ANY, 0, INADDR_ANY, htons (BitVec.ofNat 16 (1024 + k))⟩, plain⟩

def exhausted : Pcbs := ⟨false, 1024, unbound :: fullRange, .head⟩

theorem exhausted_conflicts (p : BitVec 16) (hp : InRange p) : Conflicts exhausted unbound INADDR_ANY p := by
  obtain ⟨h1, h2⟩ := inRange_iff.1 hp
  have hk : BitVec.ofNat 16 (1024 + (p.toNat - 1024)) = p := by
    refine BitVec.eq_of_toNat_eq ?_
    rw [BitVec.toNat_ofNat]
    omega
  have hmem : (⟨p.toNat - 1024 + 1, ⟨INADDR_ANY, 0, INADDR_ANY, htons p⟩, plain⟩ : Inpcb) ∈
      (exhausted.withLaddr unbound INADDR_ANY).pcbs := by
    refine List.mem_map.2 ⟨⟨p.toNat - 1024 + 1, ⟨INADDR_ANY, 0, INADDR_ANY, htons p⟩, plain⟩, ?_, ?_⟩
    · refine List.mem_cons_of_mem _ (List.mem_map.2 ⟨p.toNat - 1024, List.mem_range.2 (by omega), ?_⟩)
      rw [hk]
    · exact if_neg (Nat.succ_ne_zero _)
  have hspec := inPcblookup_spec (exhausted.withLaddr unbound INADDR_ANY).pcbs ⟨INADDR_ANY, 0, INADDR_ANY, htons p⟩
    (exhausted.wild unbound.so)
  unfold Conflicts Pcbs.taken
  cases hl : inPcblookup (exhausted.withLaddr unbound INADDR_ANY).pcbs ⟨INADDR_ANY, 0, INADDR_ANY, htons p⟩
      (exhausted.wild unbound.so) with
  | some x => rfl
  | none =>
    rw [hl] at hspec
    exact absurd rfl (hspec _ hmem 0 (wildcards_self _)).1

/-- With every port of the range taken `in_pcbbind` does not return. -/
theorem in_pcbbind_spins : ¬ ∀ (s : Pcbs) (ifs : Ifs) (inp : Inpcb) (nam : Option SockaddrIn) (priv : Bool),
    inp ∈ s.pcbs → (inp.tuple.lport = 0 → inp.tuple.faddr = INADDR_ANY) → NoPort nam →
    Bound s ifs inp nam (inPcbbind s ifs inp nam priv) := by
  intro h
  have hs : Searches lan unbound none := ⟨by simp [lan], rfl, rfl, fun _ h => by cases h⟩
  have hn : NoPort none := fun _ h => by cases h
  have hb := h exhausted lan unbound none false (List.mem_cons_self ..) (fun _ => rfl) hn
  rw [inPcbbind_searches hn hs] at hb
  obtain ⟨e, he, -⟩ | ⟨p, hr, hfree, -⟩ := hb
  · cases he
  · exact hfree (exhausted_conflicts p hr)

end BsdKernel.Inet
