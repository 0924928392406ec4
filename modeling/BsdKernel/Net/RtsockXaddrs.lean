import BsdKernel.Net.RtsockMessages
import Mathlib.Data.List.Forall2
import Mathlib.Tactic.Push
/-!
# What `rt_xaddrs` finds

Applied to a message of the kernel it gives back the addresses, unless a bit stands for an absent address before a
present one (`Stale`). Applied to what a process writes it hands on addresses that end inside the message if and only if the
bytes are a sequence of addresses of which only the last may lack its padding (`Whole`).
-/

namespace BsdKernel.Rtsock

open List (replicate)

/-! ## Messages of the kernel -/

/-- The place that is found for a slot. -/
def Slot (body : List UInt8) : Option Sockaddr → Option Nat → Prop
  | none, none => True
  | some sa, some cp => (body.drop cp).take (ROUNDUP sa.sa_len) = sa.image
  | _, _ => False

/-- The same addresses in the same slots. -/
def Decodes (info : AddrInfo) (body : List UInt8) (addrs : Nat) : Prop :=
  List.Forall₂ (Slot body) info.rti_info (rtXaddrs body addrs)

/-- The bit of an absent address is set, and an address comes behind it. -/
def Stale (addrs i : Nat) (l : List (Option Sockaddr)) : Prop :=
  ∃ a b, a < b ∧ l[a]? = some none ∧ addrs.testBit (i + a) ∧ present l b

section Kernel
variable {addrs i cp : Nat} {body : List UInt8} {l : List (Option Sockaddr)} {sa : Sockaddr}

theorem stale_none : Stale addrs i (none :: l) ↔ (addrs.testBit i ∧ ∃ b, present l b) ∨ Stale addrs (i + 1) l := by
  constructor
  · rintro ⟨a, b, hab, ha, hbit, hb⟩
    obtain ⟨b, rfl⟩ : ∃ c, b = c + 1 := ⟨b - 1, by omega⟩
    cases a with
    | zero => exact .inl ⟨hbit, b, hb⟩
    | succ a => exact .inr ⟨a, b, by omega, ha, by rwa [Nat.add_right_comm, Nat.add_assoc], hb⟩
  · rintro (⟨hbit, b, hb⟩ | ⟨a, b, hab, ha, hbit, hb⟩)
    · exact ⟨0, b + 1, Nat.succ_pos b, rfl, hbit, hb⟩
    · exact ⟨a + 1, b + 1, by omega, ha, by rwa [← Nat.add_assoc, Nat.add_right_comm], hb⟩

theorem stale_some : Stale addrs i (some sa :: l) ↔ Stale addrs (i + 1) l := by
  constructor
  · rintro ⟨a, b, hab, ha, hbit, hb⟩
    obtain ⟨b, rfl⟩ : ∃ c, b = c + 1 := ⟨b - 1, by omega⟩
    cases a with
    | zero => cases ha
    | succ a => exact ⟨a, b, by omega, ha, by rwa [Nat.add_right_comm, Nat.add_assoc], hb⟩
  · rintro ⟨a, b, hab, ha, hbit, hb⟩
    exact ⟨a + 1, b + 1, by omega, ha, by rwa [← Nat.add_assoc, Nat.add_right_comm], hb⟩

theorem encode_nil_iff (l : List (Option Sockaddr)) : encode l = [] ↔ ∀ x ∈ l, x = none := by
  induction l with
  | nil => simp [encode]
  | cons x l ih =>
    cases x with
    | none =>
      rw [encode, ih]
      simp
    | some sa => simp [encode, image_ne_nil]

theorem present_iff (l : List (Option Sockaddr)) : (∃ b, present l b) ↔ encode l ≠ [] := by
  rw [ne_eq, encode_nil_iff]
  constructor
  · rintro ⟨b, hb⟩ hall
    cases hx : l[b]? with
    | none => simp [present, hx] at hb
    | some x =>
      rw [present, hx, hall x (List.mem_of_getElem? hx)] at hb
      cases hb
  · intro hsome
    push Not at hsome
    obtain ⟨x, hx, hne⟩ := hsome
    obtain ⟨b, hb⟩ := List.getElem?_of_mem hx
    refine ⟨b, ?_⟩
    rw [present, hb]
    exact Option.isSome_iff_ne_none.2 hne

theorem xaddrs_end (h : body.length ≤ cp) (n : Nat) : xaddrs addrs body n i cp = replicate n none := by
  cases n with
  | zero => rfl
  | succ n => rw [xaddrs, if_neg (Nat.not_lt.2 h)]

theorem forall₂_none (h : ∀ x ∈ l, x = none) : List.Forall₂ (Slot body) l (replicate l.length none) := by
  induction l with
  | nil => exact .nil
  | cons x l ih =>
    obtain rfl := h x (List.mem_cons_self ..)
    exact .cons trivial (ih fun y hy => h y (List.mem_cons_of_mem _ hy))

theorem image_cons (sa : Sockaddr) : ∃ t, sa.image = sa.mem.headD 0 :: t := by
  have hne := image_ne_nil sa
  unfold Sockaddr.image at hne ⊢
  cases hm : sa.mem with
  | nil =>
    rw [hm, List.take_nil] at hne
    exact absurd rfl hne
  | cons x m =>
    obtain ⟨k, hk⟩ : ∃ k, ROUNDUP sa.sa_len = k + 1 := ⟨ROUNDUP sa.sa_len - 1, by have := roundup_pos sa.sa_len; omega⟩
    exact ⟨m.take k, by rw [hk]; rfl⟩

/-- From a slot on. -/
theorem decode (l : List (Option Sockaddr)) : ∀ i cp, body.drop cp = encode l → (∀ a, present l a → addrs.testBit (i + a)) →
    (List.Forall₂ (Slot body) l (xaddrs addrs body l.length i cp) ↔ ¬Stale addrs i l) := by
  induction l with
  | nil => exact fun i cp _ _ => iff_of_true .nil fun ⟨a, _, _, ha, _⟩ => nomatch ha
  | cons x l ih =>
    intro i cp hbody hbits
    have hbits' : ∀ a, present l a → addrs.testBit (i + 1 + a) := by
      intro a ha
      rw [Nat.add_assoc, Nat.add_comm 1 a]
      exact hbits (a + 1) ha
    cases x with
    | none =>
      by_cases hend : body.length ≤ cp
      · -- The body is at its end: no address is left.
        have hnil : encode l = [] := by
          rw [List.drop_eq_nil_of_le hend] at hbody
          exact hbody.symm
        have hall := (encode_nil_iff (none :: l)).1 hnil
        rw [xaddrs_end hend]
        refine iff_of_true (forall₂_none hall) fun ⟨a, b, _, _, _, hb⟩ => ?_
        exact (present_iff (none :: l)).1 ⟨b, hb⟩ hnil
      · have hpresent : ∃ b, present l b := by
          rw [present_iff]
          intro hnil
          have hdrop : body.drop cp = [] := hbody.trans hnil
          exact hend (List.drop_eq_nil_iff.1 hdrop)
        rw [List.length_cons, xaddrs, if_pos (Nat.lt_of_not_le hend), stale_none]
        by_cases hbit : addrs.testBit i = true
        · rw [if_pos hbit]
          refine iff_of_false (fun h => ?_) fun h => h (.inl ⟨hbit, hpresent⟩)
          cases h with
          | cons hslot _ => exact hslot
        · rw [if_neg hbit, List.forall₂_cons, ih (i + 1) cp hbody hbits']
          simp [Slot, hbit]
    | some sa =>
      have hbit : addrs.testBit i = true := hbits 0 rfl
      obtain ⟨t, ht⟩ := image_cons sa
      have hdrop : body.drop cp = sa.image ++ encode l := hbody
      have hlt : cp < body.length := by
        have hlen := congrArg List.length hdrop
        rw [List.length_drop, List.length_append, length_image] at hlen
        have hpos := roundup_pos sa.sa_len
        omega
      have hhead : ROUNDUP (body.getD cp 0).toNat = ROUNDUP sa.sa_len := by
        rw [List.drop_eq_getElem_cons hlt, ht] at hdrop
        rw [List.getD_eq_getElem?_getD, List.getElem?_eq_getElem hlt, (List.cons.inj hdrop).1]
        rfl
      have hnext : body.drop (cp + ROUNDUP sa.sa_len) = encode l := by
        rw [← List.drop_drop, hdrop, ← length_image, List.drop_left]
      have hslot : Slot body (some sa) (some cp) := by
        show (body.drop cp).take (ROUNDUP sa.sa_len) = sa.image
        rw [hdrop, ← length_image, List.take_left]
      rw [List.length_cons, xaddrs, if_pos hlt, if_pos hbit, hhead, List.forall₂_cons, ih (i + 1) _ hnext hbits', stale_some]
      exact and_iff_right hslot

theorem stale_marked (l : List (Option Sockaddr)) (addrs : Nat) : Stale (marked 0 l addrs) 0 l ↔ Stale addrs 0 l := by
  have hbit : ∀ a, l[a]? = some none → (marked 0 l addrs).testBit (0 + a) = addrs.testBit (0 + a) := by
    intro a ha
    rw [testBit_marked]
    simp [present, ha]
  constructor
  · rintro ⟨a, b, hab, ha, hm, hb⟩
    exact ⟨a, b, hab, ha, hbit a ha ▸ hm, hb⟩
  · rintro ⟨a, b, hab, ha, hm, hb⟩
    exact ⟨a, b, hab, ha, (hbit a ha).symm ▸ hm, hb⟩

theorem decodes_iff (info : AddrInfo) (addrs : Nat) :
    Decodes info (encode info.rti_info) (marked 0 info.rti_info addrs) ↔ ¬Stale addrs 0 info.rti_info := by
  rw [Decodes, rtXaddrs, ← info.slots, decode info.rti_info 0 0 rfl, stale_marked]
  intro a ha
  rw [testBit_marked]
  simp [ha]

end Kernel

/-! ## Messages of a process -/

/-- The number of addresses that the bits of the `n` slots from `i` on ask for. -/
def asked (addrs : Nat) : Nat → Nat → Nat
  | 0, _ => 0
  | n + 1, i => asked addrs n (i + 1) + if addrs.testBit i then 1 else 0

/-- The bytes are a sequence of addresses with their padding; only the last one may lack it. What comes behind the `n`th does not matter. -/
inductive Whole : Nat → List UInt8 → Prop
  | done (s : List UInt8) : Whole 0 s
  | nil (n : Nat) : Whole n []
  | last (n : Nat) (b : UInt8) (s : List UInt8) (hlen : b.toNat ≤ (b :: s).length) (hend : (b :: s).length ≤ ROUNDUP b.toNat) :
    Whole (n + 1) (b :: s)
  | next (n : Nat) (b : UInt8) (s : List UInt8) (hlen : ROUNDUP b.toNat ≤ (b :: s).length)
    (hnext : Whole n ((b :: s).drop (ROUNDUP b.toNat))) : Whole (n + 1) (b :: s)

/-- Every address begins in the bytes and ends there, with its whole `sa_len`. -/
def Inside (body : List UInt8) (slots : List (Option Nat)) : Prop :=
  ∀ cp, some cp ∈ slots → cp < body.length ∧ cp + (body.getD cp 0).toNat ≤ body.length

section Process
variable {addrs : Nat} {body : List UInt8}

theorem whole_cons (n : Nat) (b : UInt8) (s : List UInt8) :
    Whole (n + 1) (b :: s) ↔ b.toNat ≤ (b :: s).length ∧ Whole n ((b :: s).drop (ROUNDUP b.toNat)) := by
  constructor
  · intro h
    cases h with
    | last _ _ _ hlen hend =>
      rw [List.drop_eq_nil_of_le hend]
      exact ⟨hlen, .nil n⟩
    | next _ _ _ hlen hnext => exact ⟨Nat.le_trans (roundup_le _) hlen, hnext⟩
  · rintro ⟨hlen, hnext⟩
    rcases Nat.le_total (b :: s).length (ROUNDUP b.toNat) with hend | hmore
    · exact .last n b s hlen hend
    · exact .next n b s hmore hnext

/-- From a place on. -/
theorem inside_iff (n : Nat) : ∀ i cp, Inside body (xaddrs addrs body n i cp) ↔ Whole (asked addrs n i) (body.drop cp) := by
  induction n with
  | zero => exact fun i cp => iff_of_true (fun c hc => nomatch hc) (.done _)
  | succ n ih =>
    intro i cp
    by_cases hend : body.length ≤ cp
    · rw [xaddrs_end hend, List.drop_eq_nil_of_le hend]
      exact iff_of_true (fun c hc => nomatch List.eq_of_mem_replicate hc) (.nil _)
    · have hlt : cp < body.length := Nat.lt_of_not_le hend
      rw [xaddrs, if_pos hlt, asked]
      by_cases hbit : addrs.testBit i = true
      · have hhead : body[cp] = body.getD cp 0 := by
          rw [List.getD_eq_getElem?_getD, List.getElem?_eq_getElem hlt]
          rfl
        have hlen : (body.getD cp 0 :: body.drop (cp + 1)).length = body.length - cp := by
          rw [List.length_cons, List.length_drop]
          omega
        rw [if_pos hbit, if_pos hbit, List.drop_eq_getElem_cons hlt, hhead, whole_cons, hlen, ← hhead, ← List.drop_eq_getElem_cons hlt,
          List.drop_drop, ← ih (i + 1), hhead]
        constructor
        · intro h
          obtain ⟨-, hfits⟩ := h cp (List.mem_cons_self ..)
          exact ⟨by omega, fun c hc => h c (List.mem_cons_of_mem _ hc)⟩
        · rintro ⟨hfits, hrest⟩ c hc
          rcases List.mem_cons.1 hc with hc | hc
          · obtain rfl := Option.some.inj hc
            exact ⟨hlt, by omega⟩
          · exact hrest c hc
      · rw [if_neg hbit, if_neg hbit]
        apply Iff.trans _ (ih (i + 1) cp)
        exact ⟨fun h c hc => h c (List.mem_cons_of_mem _ hc), fun h c hc => h c ((List.mem_cons.1 hc).resolve_left nofun)⟩

end Process

/-! ## Both -/

/-- The two messages agree and are read back, `rt_msg1`'s if and only if no bit is stale; what `route_output` hands on lies in the
message if and only if the bytes behind the header are whole addresses. -/
theorem routing_messages (mb : Mbufs) (type : Nat) (info : AddrInfo) (hmb : ∀ n, mb.get n = true)
    (hlen : messageLen type info.rti_info < 65536) :
    (∃ p info1, rtMsg1 mb type info = some (some p, info1) ∧ p.len = p.chain.flatten.length ∧ msglen p.chain.flatten = p.len ∧
      (∀ malloc cp w, (∀ b ∈ cp, messageLen type info.rti_info ≤ b.length) → (∀ v ∈ w, v.Sized) →
        ∃ r, rtMsg2 malloc type info cp w = some r ∧ r.len = p.len ∧ (cp.isSome → r.cp0.isSome) ∧
          ∀ b ∈ r.cp0, msglen (b.take r.len) = msglen p.chain.flatten ∧
            (b.take r.len).drop (headerLen type) = p.chain.flatten.drop (headerLen type) ∧
            Decodes info ((b.take r.len).drop (headerLen type)) r.info.rti_addrs) ∧
      (Decodes info (p.chain.flatten.drop (headerLen type)) info1.rti_addrs ↔ ¬Stale info.rti_addrs 0 info.rti_info)) ∧
    ∀ malloc m slots, routeOutput malloc m = .ok slots → m.length = msglen m ∧
      (Inside (m.drop (headerLen 0)) slots ↔ Whole (asked (rtmAddrs m) RTAX_MAX 0) (m.drop (headerLen 0))) := by
  constructor
  · obtain ⟨p, hp, hplen, hcarries⟩ := rtMsg1_spec hmb hlen
    refine ⟨p, _, hp, by rw [hplen, hcarries.length], by rw [hplen, hcarries.msglen], ?_, ?_⟩
    · intro malloc cp w hcp hw
      obtain ⟨r, hr, hrlen, hrinfo, -, hsome, hbufs⟩ := rtMsg2_spec malloc cp w hlen hcp hw
      refine ⟨r, hr, by rw [hrlen, hplen], hsome, fun b hb => ?_⟩
      obtain ⟨-, hmsglen, hbody⟩ := hbufs b hb
      refine ⟨by rw [hmsglen, hcarries.msglen], by rw [hbody, hcarries.body], ?_⟩
      rw [hbody, hrinfo, decodes_iff]
      rintro ⟨a, _, _, _, hbit, _⟩
      rw [Nat.zero_testBit] at hbit
      cases hbit
    · rw [hcarries.body]
      exact decodes_iff info info.rti_addrs
  · intro malloc m slots h
    unfold routeOutput at h
    split at h
    · cases h
    split at h
    · cases h
    split at h
    · cases h
    split at h
    · cases h
    rename_i hshort _ _
    cases h
    exact ⟨by omega, inside_iff RTAX_MAX 0 0⟩

/-- A destination of five bytes and a netmask of none. -/
def hostRoute : AddrInfo :=
  ⟨0, [some ⟨[5, 2, 10, 0, 0, 7, 7, 7], by decide⟩, none, some ⟨[0, 0, 0, 0], by decide⟩, none, none, none, none, none], rfl⟩

theorem hostRoute_messages :
    (∃ p info1, rtMsg1 ⟨fun _ => true, fun _ _ => 0⟩ 4 hostRoute = some (some p, info1) ∧ p.len = p.chain.flatten.length ∧
      msglen p.chain.flatten = p.len ∧
      (∀ malloc cp w, (∀ b ∈ cp, messageLen 4 hostRoute.rti_info ≤ b.length) → (∀ v ∈ w, v.Sized) →
        ∃ r, rtMsg2 malloc 4 hostRoute cp w = some r ∧ r.len = p.len ∧ (cp.isSome → r.cp0.isSome) ∧
          ∀ b ∈ r.cp0, msglen (b.take r.len) = msglen p.chain.flatten ∧
            (b.take r.len).drop (headerLen 4) = p.chain.flatten.drop (headerLen 4) ∧
            Decodes hostRoute ((b.take r.len).drop (headerLen 4)) r.info.rti_addrs) ∧
      (Decodes hostRoute (p.chain.flatten.drop (headerLen 4)) info1.rti_addrs ↔ ¬Stale hostRoute.rti_addrs 0 hostRoute.rti_info)) ∧
    ∀ malloc m slots, routeOutput malloc m = .ok slots → m.length = msglen m ∧
      (Inside (m.drop (headerLen 0)) slots ↔ Whole (asked (rtmAddrs m) RTAX_MAX 0) (m.drop (headerLen 0))) :=
  routing_messages ⟨fun _ => true, fun _ _ => 0⟩ 4 hostRoute (fun _ => rfl) (by decide)

/-- A message with one address, whose length byte is 16 while four bytes are left. -/
def shortMessage : List UInt8 := [80, 0, 3, 1] ++ replicate 8 0 ++ [1, 0, 0, 0] ++ replicate 60 0 ++ [16, 2, 0, 0]

/-- The address is handed on, and it ends behind the message. -/
theorem short_handed_on : ∃ slots, routeOutput true shortMessage = .ok slots ∧ shortMessage.length = msglen shortMessage ∧
    ¬Inside (shortMessage.drop (headerLen 0)) slots := by
  refine ⟨[some 0, none, none, none, none, none, none, none], by decide, by decide, fun h => ?_⟩
  obtain ⟨-, hend⟩ := h 0 (List.mem_cons_self ..)
  exact absurd hend (by decide)

end BsdKernel.Rtsock
