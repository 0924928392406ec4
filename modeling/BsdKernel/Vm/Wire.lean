import BsdKernel.Vm.MapPlaced
import BsdKernel.Vm.MapOps
/-!
# Wiring a range of a map

`vm_map_pageable` with `new_pageable` clear, in terms of the wired count that an
address sees. Pass 1 clips the entries of the range and raises them, and takes
that back when it meets a hole (`firstPass`). Pass 2 lowers the entries from the
one whose fault failed on (`wireFaults_spec`).
-/

namespace BsdKernel.VmMap

/-- The wired count an address sees. -/
def wiredAt (es : List Entry) (a : Nat) : Option Int := (seen es a).map (·.wiredCount)

theorem attribute_wired : Attribute fun e => e.wiredCount := fun _ _ _ _ _ => rfl

def Entry.raise (e : Entry) : Entry := { e with wiredCount := e.wiredCount + 1 }

def Entry.lower (e : Entry) : Entry := { e with wiredCount := e.wiredCount - 1 }

@[simp] theorem lower_raise (e : Entry) : e.raise.lower = e := by
  cases e
  simp [Entry.raise, Entry.lower]

@[simp] theorem place_raise (e : Entry) : e.raise.place = e.place := rfl

@[simp] theorem place_lower (e : Entry) : e.lower.place = e.place := rfl

/-! ## Pass 1 -/

/-- An entry that meets the range, clipped at both ends of it. -/
structure Clipped (start end_ : Nat) (e : Entry) (w : Space) (front : List Entry) (e' : Entry) (back : List Entry)
    (w' : Space) : Prop where
  placed : ∀ l r, Placed (w.withEntries (l ++ e :: r)).map → Placed (w'.withEntries (l ++ (front ++ e' :: (back ++ r)))).map
  wired : ∀ r a, wiredAt (front ++ e' :: (back ++ r)) a = wiredAt (e :: r) a
  before : ∀ x ∈ front, x.end_ ≤ start
  unclipped : start ≤ e.start → front = []
  id : e'.id = e.id
  starts : e'.start = max e.start start
  ends : e'.end_ = min e.end_ end_
  count : e'.wiredCount = e.wiredCount
  behind : ∀ x ∈ back, end_ ≤ x.start
  reaches : back ≠ [] → e'.end_ = end_
  whole : back = [] → e.end_ ≤ end_
  minOffset : w'.map.minOffset = w.map.minOffset
  maxOffset : w'.map.maxOffset = w.map.maxOffset

theorem clipped_of_clip {start end_ : Nat} (hle : start ≤ end_) {e : Entry} (hs : e.start < end_) (he : start < e.end_)
    (w : Space) :
    Clipped start end_ e w (clipStart w e start).1
      (clipEnd (clipStart w e start).2.2 (clipStart w e start).2.1 end_).1
      (clipEnd (clipStart w e start).2.2 (clipStart w e start).2.1 end_).2.1
      (clipEnd (clipStart w e start).2.2 (clipStart w e start).2.1 end_).2.2 := by
  have h1 : ∀ l r, Placed (w.withEntries (l ++ e :: r)).map →
      Placed ((clipStart w e start).2.2.withEntries (l ++ ((clipStart w e start).1 ++ (clipStart w e start).2.1 :: r))).map := by
    intro l r h
    unfold clipStart
    split
    · rename_i hlo
      exact h.split (x := { e.clipFront start with id := w.map.nextId }) (y := e.clipBack start) rfl rfl rfl
        (Nat.le_of_lt hlo) (Nat.le_of_lt he) (.inl ⟨rfl, rfl⟩)
    · exact h
  have hstart : (clipStart w e start).2.1.start = max e.start start := by
    unfold clipStart
    split
    · simp only [Entry.clipBack]
      omega
    · simp only
      omega
  have hspec := clipStart_spec w e start
  have hcount := attr_clipStart attribute_wired w e start
  have hbound : (clipStart w e start).2.2.map.minOffset = w.map.minOffset ∧
      (clipStart w e start).2.2.map.maxOffset = w.map.maxOffset := by
    unfold clipStart
    split <;> exact ⟨rfl, rfl⟩
  have hnil : start ≤ e.start → (clipStart w e start).1 = [] := by
    intro h
    unfold clipStart
    rw [if_neg (by omega)]
  have hw := fun r a => seen_clipStart (r := r) (w := w) attribute_wired he a
  generalize (clipStart w e start).2.2 = w1 at *
  generalize (clipStart w e start).2.1 = e1 at *
  generalize (clipStart w e start).1 = front at *
  have hs1 : e1.start ≤ end_ := by omega
  have hw1 : ∀ r a, wiredAt ((clipEnd w1 e1 end_).1 :: ((clipEnd w1 e1 end_).2.1 ++ r)) a = wiredAt (e1 :: r) a := by
    intro r a
    unfold clipEnd
    split
    · rename_i hhi
      exact seen_split (x := e1.clipFront end_) (y := { e1.clipBack end_ with id := w1.map.nextId }) (e := e1) rfl rfl rfl
        rfl rfl hs1 (Nat.le_of_lt hhi) a
    · rfl
  refine ⟨fun l r h => ?_, fun r a => ?_, hspec.front, hnil, ?_, ?_, ?_, ?_, ?_, ?_, ?_, ?_, ?_⟩
  · have h2 := h1 l r h
    unfold clipEnd
    split
    · rename_i hhi
      rw [← List.append_assoc] at h2 ⊢
      exact h2.split (x := e1.clipFront end_) (y := { e1.clipBack end_ with id := w1.map.nextId }) rfl rfl rfl
        hs1 (Nat.le_of_lt hhi) (.inr ⟨rfl, rfl⟩)
    · exact h2
  · rw [wiredAt, seen_prefix (hw1 r) front a]
    exact hw r a
  · rw [← hspec.id]
    unfold clipEnd
    split <;> rfl
  · rw [← hstart]
    unfold clipEnd
    split <;> rfl
  · unfold clipEnd
    split
    · simp only [Entry.clipFront, hspec.end_] at *
      omega
    · simp only [hspec.end_] at *
      omega
  · rw [← hcount]
    exact attr_clipEnd attribute_wired w1 e1 end_
  · unfold clipEnd
    split
    · simp [Entry.clipBack]
    · simp
  · unfold clipEnd
    split
    · exact fun _ => rfl
    · exact fun h => absurd rfl h
  · rw [← hspec.end_]
    unfold clipEnd
    split
    · exact fun h => absurd h (by simp)
    · exact fun _ => by omega
  · rw [← hbound.1]
    unfold clipEnd
    split <;> rfl
  · rw [← hbound.2]
    unfold clipEnd
    split <;> rfl

section Pass1
variable {env : Env} {start end_ : Nat} {b ws rest behind es : List Entry} {e : Entry} {w : Space}

theorem resolve_place (env : Env) (f : Nat) (e : Entry) :
    (e.resolve env f).place = e.place ∧ (e.resolve env f).wiredCount = e.wiredCount := by
  unfold Entry.resolve
  repeat' split
  all_goals exact ⟨rfl, rfl⟩

/-- The entry as pass 1 leaves it before it is clipped. -/
def Entry.readied (env : Env) (e : Entry) : Entry := if e.wiredCount = 0 then e.resolve env e.protection else e

theorem readied_place (env : Env) (e : Entry) :
    (e.readied env).place = e.place ∧ (e.readied env).wiredCount = e.wiredCount := by
  unfold Entry.readied
  split
  · exact resolve_place env _ e
  · exact ⟨rfl, rfl⟩

/-- What wiring depends on. -/
def Entry.slot (e : Entry) : (Nat × Nat × Nat) × Int := (e.place, e.wiredCount)

/-- The same, where the count of an entry without addresses does not matter. -/
def Entry.view (e : Entry) : (Nat × Nat × Nat) × Int := (e.place, if e.start < e.end_ then e.wiredCount else 0)

theorem wiredAt_of_view (h : es.map Entry.view = rest.map Entry.view) (a : Nat) : wiredAt es a = wiredAt rest a := by
  have key : ∀ l : List Entry, wiredAt l a = ((l.map Entry.view).find? fun p =>
      decide (p.1.2.1 ≤ a) && decide (a < p.1.2.2)).map Prod.snd := fun l => by
    rw [List.find?_map, Option.map_map]
    refine Option.map_congr fun e he => ?_
    obtain ⟨-, h1, h2⟩ := mem_of_seen he
    simp only [Function.comp_apply, Entry.view]
    rw [if_pos (by omega)]
  rw [key, key, h]

theorem view_of_slots (h : es.map Entry.slot = rest.map Entry.slot) : es.map Entry.view = rest.map Entry.view := by
  have := congrArg (List.map fun p : (Nat × Nat × Nat) × Int => (p.1, if p.1.2.1 < p.1.2.2 then p.2 else 0)) h
  rw [List.map_map, List.map_map] at this
  exact this

theorem wiredAt_congr (h : es.map Entry.slot = rest.map Entry.slot) (a : Nat) : wiredAt es a = wiredAt rest a :=
  wiredAt_of_view (view_of_slots h) a

/-- There is no hole between an entry that ends before `end_` and the next. -/
def NoHole (end_ : Nat) : List Entry → Prop
  | [] => True
  | e :: rest => (e.start < end_ → e.end_ < end_ → ∃ n ∈ rest.head?, n.start ≤ e.end_) ∧ NoHole end_ rest

/-- The test for a hole behind `e`. -/
def hole (end_ : Nat) (e : Entry) (rest : List Entry) : Prop := e.end_ < end_ ∧ rest.head?.all (·.start > e.end_)

instance (end_ : Nat) (e : Entry) (rest : List Entry) : Decidable (hole end_ e rest) :=
  inferInstanceAs (Decidable (_ ∧ _))

/-- One round of pass 1. -/
theorem wireEntries_round (env : Env) (hle : start ≤ end_) (hs : e.start < end_) (he : start < e.end_) (behind rest : List Entry) (w : Space) :
    ∃ front e' back w', Clipped start end_ (e.readied env) w front e' back w' ∧
      wireEntries env start end_ behind (e :: rest) w =
        if back ≠ [] then (true, (e'.raise :: (front.reverse ++ behind)).reverse ++ (back ++ rest), w')
        else if hole end_ e' rest then
          (false, (undoWired start (e'.raise :: (front.reverse ++ behind))).reverse ++ rest, w')
        else wireEntries env start end_ (e'.raise :: (front.reverse ++ behind)) rest w' := by
  have hplace := (readied_place env e).1
  obtain ⟨-, hps, hpe⟩ : (e.readied env).id = e.id ∧ (e.readied env).start = e.start ∧ (e.readied env).end_ = e.end_ := by
    simpa [Entry.place] using hplace
  have hclip := clipped_of_clip hle (e := e.readied env) (by omega) (by omega) w
  refine ⟨_, _, _, _, hclip, ?_⟩
  rw [wireEntries, if_pos hs]
  simp only
  rw [show (if e.wiredCount = 0 then e.resolve env e.protection else e) = e.readied env from rfl]
  split
  · rename_i e2 w2 heq
    simp only [heq, ne_eq, not_true_eq_false, if_false]
    rfl
  · rename_i e2 back w2 hne heq
    have hback : back ≠ [] := hne
    simp only [heq, if_pos hback]
    rfl

theorem undoWired_raised (hb : ∀ x ∈ behind, x.end_ ≤ start) (l : List Entry) (hl : ∀ x ∈ l, start < x.end_) :
    undoWired start (l.map Entry.raise ++ behind) = l ++ behind := by
  induction l with
  | nil =>
    cases behind with
    | nil => rfl
    | cons x behind =>
      have := hb x (by simp)
      rw [List.map_nil, List.nil_append, undoWired, if_neg (by omega)]
  | cons x l ih =>
    have hx : x.raise.end_ > start := hl x (by simp)
    rw [List.map_cons, List.cons_append, undoWired, if_pos hx, ih fun y hy => hl y (by simp [hy])]
    exact congrArg (· :: (l ++ behind)) (lower_raise x)

/-- What pass 1 leaves behind `b` and the entries `ws` already raised: the entries of
the range, raised or as they were, and those behind it. -/
structure Passed (start end_ : Nat) (b ws rest : List Entry) (w : Space) (r : Bool × List Entry × Space)
    (ws' bk : List Entry) : Prop where
  entries : r.2.1 = if r.1 then b ++ (ws ++ ws').map Entry.raise ++ bk else b ++ (ws ++ ws') ++ bk
  placed : Placed (r.2.2.withEntries r.2.1).map
  wired : ∀ a, wiredAt (ws' ++ bk) a = wiredAt rest a
  inside : ∀ x ∈ ws', start ≤ x.start ∧ x.start < end_ ∧ x.end_ ≤ end_
  head : (ws' ++ bk).head?.map (·.start) = rest.head?.map (·.start)
  behind : r.1 = true → ∀ x ∈ bk, end_ ≤ x.start
  counts : (∀ x ∈ rest, 0 ≤ x.wiredCount) → ∀ x ∈ ws', 0 ≤ x.wiredCount
  noHole : r.1 = true → NoHole end_ (ws' ++ bk)
  minOffset : r.2.2.map.minOffset = w.map.minOffset
  maxOffset : r.2.2.map.maxOffset = w.map.maxOffset

theorem noHole_of_behind (h : ∀ x ∈ es, end_ ≤ x.start) : NoHole end_ es := by
  induction es with
  | nil => trivial
  | cons e es ih =>
    have := h e (by simp)
    exact ⟨fun hs => by omega, ih fun x hx => h x (by simp [hx])⟩

/-- No hole was seen behind `e`, so there is none in front of what pass 1 makes of the rest. -/
theorem noHole_cons (hnot : ¬hole end_ e rest) (hhead : es.head?.map (·.start) = rest.head?.map (·.start))
    (h : NoHole end_ es) : NoHole end_ (e :: es) := by
  refine ⟨fun _ he => ?_, h⟩
  have hall : ¬rest.head?.all (·.start > e.end_) := fun hall => hnot ⟨he, hall⟩
  cases hr : rest.head? with
  | none => simp [hr] at hall
  | some x =>
    rw [hr] at hall hhead
    obtain ⟨n, hn, hnx⟩ := Option.map_eq_some_iff.1 hhead
    have hx : x.start ≤ e.end_ := by simpa using hall
    exact ⟨n, hn, le_of_eq_of_le hnx hx⟩

theorem Placed.replace {l r : List Entry} {x y : Entry} (h : Placed (w.withEntries (l ++ x :: r)).map) (hxy : y.place = x.place) :
    Placed (w.withEntries (l ++ y :: r)).map := by
  have hplaces : (l ++ y :: r).map Entry.place = (l ++ x :: r).map Entry.place := by simp [hxy]
  exact h.congr hplaces

theorem wireEntries_spec (env : Env) (hlt : start < end_) (rest : List Entry) :
    ∀ (ws : List Entry) (w : Space), Placed (w.withEntries (b ++ ws.map Entry.raise ++ rest)).map →
      (∀ x ∈ b, x.end_ ≤ start) → (∀ x ∈ ws, start < x.end_) → (∀ x ∈ rest, start ≤ x.start ∧ start < x.end_) →
      ∃ ws' bk, Passed start end_ b ws rest w (wireEntries env start end_ (b ++ ws.map Entry.raise).reverse rest w) ws' bk := by
  induction rest with
  | nil =>
    intro ws w h hb hws hrest
    refine ⟨[], [], ⟨by simp [wireEntries], by simpa [wireEntries] using h, fun a => rfl, by simp, rfl, by simp, by simp,
      fun _ => trivial, rfl, rfl⟩⟩
  | cons e rest ih =>
    intro ws w h hb hws hrest
    obtain ⟨hes, hee⟩ := hrest e (by simp)
    by_cases hend : e.start < end_
    · obtain ⟨front, e', back, w', hclip, heq⟩ :=
        wireEntries_round env (Nat.le_of_lt hlt) hend hee (b ++ ws.map Entry.raise).reverse rest w
      obtain ⟨hpl, hcnt⟩ := readied_place env e
      obtain ⟨-, hps, hpe⟩ : (e.readied env).id = e.id ∧ (e.readied env).start = e.start ∧
          (e.readied env).end_ = e.end_ := by simpa [Entry.place] using hpl
      obtain rfl : front = [] := hclip.unclipped (by omega)
      have hplaced := hclip.placed (b ++ ws.map Entry.raise) rest (h.replace hpl)
      have hwired : ∀ a, wiredAt (e' :: (back ++ rest)) a = wiredAt (e :: rest) a := fun a => by
        rw [← List.nil_append (e' :: (back ++ rest)), hclip.wired]
        exact wiredAt_congr (by simp [Entry.slot, hpl, hcnt]) a
      have hs' : e'.start = e.start := by rw [hclip.starts]; omega
      have he' : start < e'.end_ := by rw [hclip.ends]; omega
      have hin' : start ≤ e'.start ∧ e'.start < end_ ∧ e'.end_ ≤ end_ := by rw [hclip.ends]; omega
      have hcount : e'.wiredCount = e.wiredCount := hclip.count.trans hcnt
      have hrev : e'.raise :: ([].reverse ++ (b ++ ws.map Entry.raise).reverse) = (b ++ (ws ++ [e']).map Entry.raise).reverse := by
        simp
      have hws' : ∀ x ∈ ws ++ [e'], start < x.end_ := fun x hx => by
        rcases List.mem_append.1 hx with hx | hx
        · exact hws x hx
        · rw [List.mem_singleton.1 hx]
          exact he'
      rw [heq, hrev]
      split_ifs with hback hhole
      · -- The entry reaches over the end of the range.
        have hbehind : ∀ x ∈ back ++ rest, end_ ≤ x.start := fun x hx => by
          rcases List.mem_append.1 hx with hx | hx
          · exact hclip.behind x hx
          · obtain ⟨y, hy⟩ := List.exists_mem_of_ne_nil back hback
            have ho := (List.pairwise_append.1 (List.pairwise_append.1 hplaced.order).2.1).2.1
            have h1 := (List.pairwise_append.1 (List.pairwise_cons.1 ho).2).2.2 y hy x hx
            have h2 := hplaced.le y (by simp [Space.withEntries, hy])
            have h3 := hclip.behind y hy
            omega
        refine ⟨[e'], back ++ rest, ⟨by simp, ?_, hwired, by simpa using hin', by simp [hs'], fun _ => hbehind,
          fun hc => ?_, fun _ => ⟨fun _ he => ?_, noHole_of_behind hbehind⟩, hclip.minOffset, hclip.maxOffset⟩⟩
        · refine (hplaced.replace (y := e'.raise) rfl).congr ?_
          simp [Space.withEntries]
        · simpa [hcount] using hc e (by simp)
        · have := hclip.reaches hback
          omega
      · -- A hole behind the entry.
        have hundo : (undoWired start (b ++ (ws ++ [e']).map Entry.raise).reverse).reverse = b ++ (ws ++ [e']) := by
          rw [List.reverse_append, ← List.map_reverse, undoWired_raised (by simpa using hb) _ fun x hx => hws' x (List.mem_reverse.1 hx)]
          simp
        obtain rfl : back = [] := not_not.1 hback
        rw [hundo]
        refine ⟨[e'], rest, ⟨by simp, ?_, hwired, by simpa using hin', by simp [hs'], by simp,
          fun hc => ?_, by simp, hclip.minOffset, hclip.maxOffset⟩⟩
        · refine hplaced.congr ?_
          simp [Space.withEntries, Function.comp_def]
        · simpa [hcount] using hc e (by simp)
      · obtain rfl : back = [] := not_not.1 hback
        have hplaced' : Placed (w'.withEntries (b ++ (ws ++ [e']).map Entry.raise ++ rest)).map := by
          refine (hplaced.replace (y := e'.raise) rfl).congr ?_
          simp [Space.withEntries]
        obtain ⟨ws', bk, hp⟩ := ih (ws ++ [e']) w' hplaced' hb hws' fun x hx => hrest x (by simp [hx])
        refine ⟨e' :: ws', bk, ⟨?_, hp.placed, fun a => ?_, ?_, by simp [hs'], hp.behind, fun hc => ?_,
          fun hok => noHole_cons hhole hp.head (hp.noHole hok), hp.minOffset.trans hclip.minOffset,
          hp.maxOffset.trans hclip.maxOffset⟩⟩
        · rw [hp.entries]
          simp
        · rw [← hwired a]
          exact seen_prefix hp.wired [e'] a
        · intro x hx
          rcases List.mem_cons.1 hx with rfl | hx
          · exact hin'
          · exact hp.inside x hx
        · intro x hx
          rcases List.mem_cons.1 hx with rfl | hx
          · rw [hcount]
            exact hc e (by simp)
          · exact hp.counts (fun y hy => hc y (by simp [hy])) x hx
    · -- The entry is behind the range, and so are all others.
      rw [wireEntries, if_neg hend]
      have hbehind : ∀ x ∈ e :: rest, end_ ≤ x.start := fun x hx => by
        have ho := (List.pairwise_append.1 h.order).2.1
        rcases List.mem_cons.1 hx with rfl | hx
        · omega
        · have h1 := (List.pairwise_cons.1 ho).1 x hx
          have h2 := h.le e (by simp [Space.withEntries])
          omega
      refine ⟨[], e :: rest, ⟨by simp, by simpa using h, fun a => rfl, by simp, rfl, fun _ => hbehind, by simp,
        fun _ => noHole_of_behind hbehind, rfl, rfl⟩⟩

/-- The range of a pass: its entries hold the addresses of the range and no others. -/
theorem wiredAt_raise {bk : List Entry} (hb : ∀ x ∈ b, x.end_ ≤ start) (hws : ∀ x ∈ ws, start ≤ x.start ∧ x.start < end_ ∧ x.end_ ≤ end_)
    (hbk : ∀ x ∈ bk, end_ ≤ x.start) (a : Nat) :
    wiredAt (b ++ (ws.map Entry.raise ++ bk)) a =
      if start ≤ a ∧ a < end_ then (wiredAt (b ++ (ws ++ bk)) a).map (· + 1) else wiredAt (b ++ (ws ++ bk)) a := by
  have hraise : (ws.map Entry.raise).find? (fun e => decide (e.start ≤ a) && decide (a < e.end_)) =
      (ws.find? fun e => decide (e.start ≤ a) && decide (a < e.end_)).map Entry.raise := List.find?_map ..
  have hws' : seen (ws.map Entry.raise) a = (seen ws a).map Entry.raise := hraise
  unfold wiredAt
  rw [seen_append, seen_append, seen_append, seen_append, hws']
  split_ifs with hin
  · have hbn : seen b a = none := seen_none fun x hx => .inr (by have := hb x hx; omega)
    have hbkn : seen bk a = none := seen_none fun x hx => .inl (by have := hbk x hx; omega)
    rw [hbn, hbkn]
    cases seen ws a <;> rfl
  · have hwn : seen ws a = none := seen_none fun x hx => by
      have := hws x hx
      omega
    rw [hwn]
    rfl

theorem NoHole.covers {a : Nat} (h : NoHole end_ es) (hhead : ∃ x ∈ es.head?, x.start ≤ a) (ha : a < end_) :
    ∃ x ∈ es, x.start ≤ a ∧ a < x.end_ := by
  induction es with
  | nil => simp at hhead
  | cons e es ih =>
    obtain ⟨x, hx, hxa⟩ := hhead
    obtain rfl : e = x := by simpa using hx
    by_cases hin : a < e.end_
    · exact ⟨e, by simp, hxa, hin⟩
    · obtain ⟨n, hn, hle⟩ := h.1 (by omega) (by omega)
      obtain ⟨y, hy, hya⟩ := ih h.2 ⟨n, hn, by omega⟩
      exact ⟨y, by simp [hy], hya⟩

/-- Pass 1 from the entry that holds the start of the range: those in front of the
range, those of it and those behind it. -/
structure FirstPass (start end_ : Nat) (w : Space) (entry : Ref) (r : Bool × List Entry × Space)
    (b ws bk : List Entry) : Prop where
  entries : r.2.1 = if r.1 then b ++ (ws.map Entry.raise ++ bk) else b ++ (ws ++ bk)
  placed : Placed (r.2.2.withEntries r.2.1).map
  wired : ∀ a, wiredAt (b ++ (ws ++ bk)) a = wiredAt w.map.entries a
  before : ∀ x ∈ b, x.end_ ≤ start
  inside : ∀ x ∈ ws, start ≤ x.start ∧ x.start < end_ ∧ x.end_ ≤ end_
  behind : r.1 = true → ∀ x ∈ bk, end_ ≤ x.start
  counts : ∀ x ∈ ws, 0 ≤ x.wiredCount
  noHole : r.1 = true → NoHole end_ (ws ++ bk)
  head : start < end_ → ∃ x ∈ ws.head?, x.start = start ∧ start < x.end_
  entry : ∃ x ∈ (ws ++ bk).head?, entry = some x.id
  minOffset : r.2.2.map.minOffset = w.map.minOffset
  maxOffset : r.2.2.map.maxOffset = w.map.maxOffset

theorem firstPass (env : Env) (hle : start ≤ end_) (h : Placed w.map) (hm : w.map.entries = b ++ e :: rest)
    (hin : e.start ≤ start ∧ start < e.end_) (hc : ∀ x ∈ w.map.entries, 0 ≤ x.wiredCount) :
    ∃ b' ws bk, FirstPass start end_ w (some e.id) (wireEntries env start end_ b.reverse (e :: rest) w) b' ws bk := by
  obtain ⟨ho1, ho2, ho3⟩ := List.pairwise_append.1 (hm ▸ h.order)
  obtain ⟨ho4, -⟩ := List.pairwise_cons.1 ho2
  have hbefore : ∀ x ∈ b, x.end_ ≤ start := fun x hx => by
    have := ho3 x hx e (by simp)
    omega
  have hrest : ∀ x ∈ rest, e.end_ ≤ x.start ∧ x.start ≤ x.end_ := fun x hx =>
    ⟨ho4 x hx, h.le x (by rw [hm]; simp [hx])⟩
  have hself : w.withEntries (b ++ e :: rest) = w := by rw [← hm]; rfl
  by_cases hs : e.start < end_
  · obtain ⟨front, e', back, w', hclip, heq⟩ := wireEntries_round env hle hs hin.2 b.reverse rest w
    obtain ⟨hpl, hcnt⟩ := readied_place env e
    obtain ⟨hpi, hps, hpe⟩ : (e.readied env).id = e.id ∧ (e.readied env).start = e.start ∧
        (e.readied env).end_ = e.end_ := by simpa [Entry.place] using hpl
    have hplaced := hclip.placed b rest (Placed.replace (x := e) (by rw [hself]; exact h) hpl)
    have hs' : e'.start = start := by rw [hclip.starts]; omega
    have hid : e'.id = e.id := hclip.id.trans hpi
    have hcount : 0 ≤ e'.wiredCount := by
      rw [hclip.count, hcnt]
      exact hc e (by rw [hm]; simp)
    have hwired : ∀ a, wiredAt (b ++ (front ++ e' :: (back ++ rest))) a = wiredAt w.map.entries a := fun a => by
      rw [hm]
      refine seen_prefix (fun c => ?_) b a
      exact (hclip.wired rest c).trans (wiredAt_congr (by simp [Entry.slot, hpl, hcnt]) c)
    have hfront : ∀ x ∈ b ++ front, x.end_ ≤ start := fun x hx => by
      rcases List.mem_append.1 hx with hx | hx
      · exact hbefore x hx
      · exact hclip.before x hx
    have hrev : e'.raise :: (front.reverse ++ b.reverse) = (b ++ front ++ [e'].map Entry.raise).reverse := by simp
    have hbackrest : back ≠ [] → ∀ x ∈ back ++ rest, end_ ≤ x.start := fun hback x hx => by
      rcases List.mem_append.1 hx with hx | hx
      · exact hclip.behind x hx
      · obtain ⟨y, hy⟩ := List.exists_mem_of_ne_nil back hback
        have ho := (List.pairwise_append.1 (List.pairwise_append.1 hplaced.order).2.1).2.1
        have h1 := (List.pairwise_append.1 (List.pairwise_cons.1 ho).2).2.2 y hy x hx
        have h2 := hplaced.le y (by simp [Space.withEntries, hy])
        have h3 := hclip.behind y hy
        omega
    rw [heq, hrev]
    by_cases hback : back = []
    · -- The entry ends in the range.
      have hwhole := hclip.whole hback
      subst hback
      have hlt : start < end_ := by omega
      have he' : start < e'.end_ := by rw [hclip.ends]; omega
      have hin' : start ≤ e'.start ∧ e'.start < end_ ∧ e'.end_ ≤ end_ := by rw [hclip.ends]; omega
      rw [if_neg (not_not.2 rfl)]
      split_ifs with hhole
      · have hundo : (undoWired start (b ++ front ++ [e'].map Entry.raise).reverse).reverse = b ++ front ++ [e'] := by
          rw [List.reverse_append, ← List.map_reverse,
            undoWired_raised (fun x hx => hfront x (List.mem_reverse.1 hx)) _ (by simpa using he')]
          simp
        rw [hundo]
        refine ⟨b ++ front, [e'], rest, ⟨by simp, ?_, fun a => ?_, hfront, by simpa using hin', by simp,
          by simpa using hcount, by simp, fun _ => ⟨e', rfl, hs', he'⟩, ⟨e', rfl, by rw [hid]⟩, hclip.minOffset,
          hclip.maxOffset⟩⟩
        · simpa using hplaced
        · simpa using hwired a
      · have hplaced' : Placed (w'.withEntries (b ++ front ++ [e'].map Entry.raise ++ rest)).map := by
          have hl : Placed (w'.withEntries ((b ++ front) ++ e' :: rest)).map := by simpa using hplaced
          simpa using hl.replace (y := e'.raise) rfl
        obtain ⟨ws, bk, hp⟩ := wireEntries_spec env hlt rest [e'] w' hplaced' hfront (by simpa using he')
          fun x hx => by
            have := hrest x hx
            omega
        refine ⟨b ++ front, e' :: ws, bk, ⟨?_, hp.placed, fun a => ?_, hfront, ?_, hp.behind, ?_, ?_,
          fun _ => ⟨e', rfl, hs', he'⟩, ⟨e', rfl, by rw [hid]⟩, hp.minOffset.trans hclip.minOffset,
          hp.maxOffset.trans hclip.maxOffset⟩⟩
        · rw [hp.entries]
          simp
        · rw [← hwired a]
          have : wiredAt (b ++ front ++ [e'] ++ (ws ++ bk)) a = wiredAt (b ++ front ++ [e'] ++ rest) a :=
            seen_prefix hp.wired (b ++ front ++ [e']) a
          simpa using this
        · intro x hx
          rcases List.mem_cons.1 hx with rfl | hx
          · exact hin'
          · exact hp.inside x hx
        · intro x hx
          rcases List.mem_cons.1 hx with rfl | hx
          · exact hcount
          · exact hp.counts (fun y hy => hc y (by rw [hm]; simp [hy])) x hx
        · exact fun hok => noHole_cons hhole hp.head (hp.noHole hok)
    · -- The entry reaches over the end of the range.
      have hreach := hclip.reaches hback
      have hbehind := hbackrest hback
      have hplaced' : Placed (w'.withEntries (b ++ front ++ [e'].map Entry.raise ++ (back ++ rest))).map := by
        have hl : Placed (w'.withEntries ((b ++ front) ++ e' :: (back ++ rest))).map := by simpa using hplaced
        simpa using hl.replace (y := e'.raise) rfl
      rw [if_pos hback, List.reverse_reverse]
      rcases Nat.lt_or_eq_of_le hle with hlt | rfl
      · have hin' : start ≤ e'.start ∧ e'.start < end_ ∧ e'.end_ ≤ end_ := by omega
        refine ⟨b ++ front, [e'], back ++ rest, ⟨by simp, hplaced', fun a => ?_, hfront, by simpa using hin',
          fun _ => hbehind, by simpa using hcount, fun _ => ⟨fun _ he => by omega, noHole_of_behind hbehind⟩,
          fun _ => ⟨e', rfl, hs', by omega⟩, ⟨e', rfl, by rw [hid]⟩, hclip.minOffset, hclip.maxOffset⟩⟩
        simpa using hwired a
      · -- An empty range inside the entry: what is raised has no addresses.
        have hall : ∀ x ∈ e'.raise :: (back ++ rest), start ≤ x.start := fun x hx => by
          rcases List.mem_cons.1 hx with rfl | hx
          · exact Nat.le_of_eq hs'.symm
          · exact hbehind x hx
        refine ⟨b ++ front, [], e'.raise :: (back ++ rest), ⟨by simp, hplaced', fun a => ?_, hfront, by simp,
          fun _ => hall, by simp, fun _ => noHole_of_behind hall, fun hlt => absurd hlt (Nat.lt_irrefl _),
          ⟨e'.raise, rfl, by rw [← hid]; rfl⟩, hclip.minOffset, hclip.maxOffset⟩⟩
        rw [← hwired a]
        refine wiredAt_of_view ?_ a
        have hempty : ¬e'.start < e'.end_ := by omega
        simp [Entry.view, Entry.raise, Entry.place, hempty]
  · -- An empty range where the entry starts.
    rw [wireEntries, if_neg hs]
    have hbehind : ∀ x ∈ e :: rest, end_ ≤ x.start := fun x hx => by
      rcases List.mem_cons.1 hx with rfl | hx
      · omega
      · have := hrest x hx
        omega
    refine ⟨b, [], e :: rest, ⟨by simp, ?_, fun a => by rw [hm]; rfl, hbefore, by simp, fun _ => hbehind, by simp,
      fun _ => noHole_of_behind hbehind, fun hlt => by omega, ⟨e, rfl, rfl⟩, rfl, rfl⟩⟩
    rw [List.reverse_reverse, hself]
    exact h

end Pass1

/-! ## Pass 2 -/

/-- The entries are in their places with their counts; what they map, and the hint, may be others. -/
structure Unmoved (w w' : Space) : Prop where
  slots : w'.map.entries.map Entry.slot = w.map.entries.map Entry.slot
  placed : Placed w'.map
  minOffset : w'.map.minOffset = w.map.minOffset
  maxOffset : w'.map.maxOffset = w.map.maxOffset

section Pass2
variable {env : Env} {end_ : Nat} {ws bk es es' : List Entry} {e : Entry} {w w' w'' : Space}

theorem Unmoved.refl (h : Placed w.map) : Unmoved w w := ⟨rfl, h, rfl, rfl⟩

theorem Unmoved.trans (h : Unmoved w w') (h' : Unmoved w' w'') : Unmoved w w'' :=
  ⟨h'.slots.trans h.slots, h'.placed, h'.minOffset.trans h.minOffset, h'.maxOffset.trans h.maxOffset⟩

theorem places_of_slots (h : es'.map Entry.slot = es.map Entry.slot) : es'.map Entry.place = es.map Entry.place := by
  have := congrArg (List.map Prod.fst) h
  simpa [Entry.slot, List.map_map, Function.comp_def] using this

theorem unmoved_resolve (h : Placed w.map) (r : Ref) (f : Nat) :
    Unmoved w { w with map := w.map.modify r (·.resolve env f) } := by
  have hslots : (w.map.modify r (·.resolve env f)).entries.map Entry.slot = w.map.entries.map Entry.slot := by
    rw [Map.modify, List.map_map]
    refine List.map_congr_left fun e _ => ?_
    have := resolve_place env f e
    simp only [Function.comp_apply, Entry.slot]
    split
    · rw [this.1, this.2]
    · rfl
  exact ⟨hslots, h.congr (places_of_slots hslots), rfl, rfl⟩

/-- A simulated fault leaves the places and the counts. -/
theorem unmoved_fault (env : Env) (h : Placed w.map) (fault : Nat × Nat) : Unmoved w (vmMapLookup env w fault) := by
  obtain ⟨vaddr, faultType⟩ := fault
  unfold vmMapLookup
  simp only
  generalize hp : (if ((w.map.entry w.map.hint).any fun e => decide (e.start ≤ vaddr) && decide (vaddr < e.end_)) = true
    then (true, w.map.hint, w.map) else vmMapLookupEntry w.map vaddr) = p
  have hu : Unmoved w { w with map := p.2.2 } := by
    rw [← hp]
    split
    · exact Unmoved.refl h
    · have hl := h.lookup vaddr
      rw [hl.same]
      exact ⟨rfl, { h with hint := hl.live }, rfl, rfl⟩
  split
  · exact hu
  · rename_i e _
    split
    · exact hu
    · split
      · split
        · exact hu
        · exact ⟨hu.slots, hu.placed, hu.minOffset, hu.maxOffset⟩
      · exact hu.trans (unmoved_resolve hu.placed _ _)

theorem unmoved_faults (env : Env) (l : List (Nat × Nat)) :
    ∀ w : Space, Placed w.map → Unmoved w (l.foldl (vmMapLookup env) w) := by
  induction l with
  | nil => exact fun w h => Unmoved.refl h
  | cons f l ih => exact fun w h => (unmoved_fault env h f).trans (ih _ (unmoved_fault env h f).placed)

/-- The counts of the entries in `is` lowered. -/
def lowered (is : List Nat) (l : List ((Nat × Nat × Nat) × Int)) : List ((Nat × Nat × Nat) × Int) :=
  l.map fun s => if s.1.1 ∈ is then (s.1, s.2 - 1) else s

/-- The space with the entries `is` lowered. -/
structure Lowered (is : List Nat) (w w' : Space) : Prop where
  slots : w'.map.entries.map Entry.slot = lowered is (w.map.entries.map Entry.slot)
  placed : Placed w'.map
  minOffset : w'.map.minOffset = w.map.minOffset
  maxOffset : w'.map.maxOffset = w.map.maxOffset

theorem lowered_nil (l : List ((Nat × Nat × Nat) × Int)) : lowered [] l = l := by
  simp [lowered]

theorem lowered_cons {i : Nat} {is : List Nat} (hi : i ∉ is) (l : List ((Nat × Nat × Nat) × Int)) :
    lowered is (lowered [i] l) = lowered (i :: is) l := by
  unfold lowered
  rw [List.map_map]
  refine List.map_congr_left fun s _ => ?_
  by_cases hs : s.1.1 = i
  · simp [hs, hi]
  · simp [hs]

theorem places_of_lowered {is : List Nat} (h : es'.map Entry.slot = lowered is (es.map Entry.slot)) :
    es'.map Entry.place = es.map Entry.place := by
  have hfst : (lowered is (es.map Entry.slot)).map Prod.fst = (es.map Entry.slot).map Prod.fst := by
    rw [lowered, List.map_map]
    refine List.map_congr_left fun s _ => ?_
    simp only [Function.comp_apply]
    split <;> rfl
  have := (congrArg (List.map Prod.fst) h).trans hfst
  simpa [Entry.slot, List.map_map, Function.comp_def] using this

theorem lowered_modify (h : Placed w.map) (i : Nat) :
    Lowered [i] w { w with map := w.map.modify (some i) fun e => { e with wiredCount := e.wiredCount - 1 } } := by
  have hslots : (w.map.modify (some i) fun e => { e with wiredCount := e.wiredCount - 1 }).entries.map Entry.slot =
      lowered [i] (w.map.entries.map Entry.slot) := by
    rw [Map.modify, List.map_map, lowered, List.map_map]
    refine List.map_congr_left fun e _ => ?_
    by_cases he : e.id = i
    · simp [Entry.slot, Entry.place, he]
    · simp [Entry.slot, Entry.place, he, Ne.symm he]
  exact ⟨hslots, h.congr (places_of_lowered hslots), rfl, rfl⟩

theorem Lowered.cons {i : Nat} {is : List Nat} (h : Lowered [i] w w') (h' : Lowered is w' w'') (hi : i ∉ is) :
    Lowered (i :: is) w w'' :=
  ⟨by rw [h'.slots, h.slots, lowered_cons hi], h'.placed, h'.minOffset.trans h.minOffset,
    h'.maxOffset.trans h.maxOffset⟩

/-- After a fault has failed, all other entries of the range are lowered. -/
theorem wireFaults_failed (env : Env) (hws : ∀ x ∈ ws, x.start < end_) (hn : (ids ws).Nodup) (hbk : ∀ x ∈ bk, end_ ≤ x.start)
    (failed : Nat × Kern) : ∀ w : Space, Placed w.map →
      (wireFaults env end_ (ws ++ bk) (some failed) w).1 = some failed ∧
        Lowered (ids ws) w (wireFaults env end_ (ws ++ bk) (some failed) w).2 := by
  have hstop : ∀ w : Space, wireFaults env end_ bk (some failed) w = (some failed, w) := fun w => by
    cases bk with
    | nil => rfl
    | cons x bk =>
      have := hbk x (by simp)
      rw [wireFaults]
      simp only
      rw [if_neg (by omega)]
  induction ws with
  | nil =>
    intro w h
    rw [List.nil_append, hstop]
    exact ⟨rfl, by simp [lowered_nil], h, rfl, rfl⟩
  | cons e ws ih =>
    intro w h
    obtain ⟨he, hn⟩ := List.nodup_cons.1 hn
    have hlow := lowered_modify h e.id
    obtain ⟨h1, h2⟩ := ih (fun x hx => hws x (by simp [hx])) hn _ hlow.placed
    rw [List.cons_append, wireFaults]
    simp only
    rw [if_pos (hws e (by simp)), if_pos Option.isSome_some]
    exact ⟨h1, hlow.cons h2 he⟩

/-- Pass 2: all faults succeed and nothing is changed, or one fails and its entry
and those behind it are lowered. -/
theorem wireFaults_spec (env : Env) (hws : ∀ x ∈ ws, x.start < end_) (hn : (ids ws).Nodup) (hbk : ∀ x ∈ bk, end_ ≤ x.start) :
    ∀ w : Space, Placed w.map →
      ((wireFaults env end_ (ws ++ bk) none w).1 = none ∧ Unmoved w (wireFaults env end_ (ws ++ bk) none w).2) ∨
        ∃ p x q rv, ws = p ++ x :: q ∧ rv ≠ .success ∧ (wireFaults env end_ (ws ++ bk) none w).1 = some (x.start, rv) ∧
          Lowered (ids (x :: q)) w (wireFaults env end_ (ws ++ bk) none w).2 := by
  induction ws with
  | nil =>
    intro w h
    refine .inl ?_
    rw [List.nil_append]
    cases bk with
    | nil => exact ⟨rfl, Unmoved.refl h⟩
    | cons x bk =>
      have := hbk x (by simp)
      rw [wireFaults]
      simp only
      rw [if_neg (by omega)]
      exact ⟨rfl, Unmoved.refl h⟩
  | cons e ws ih =>
    intro w h
    obtain ⟨he, hn'⟩ := List.nodup_cons.1 hn
    have ih' := ih (fun x hx => hws x (by simp [hx])) hn'
    -- What the rest of the pass does from a space that is like `w`.
    have hgo : ∀ w1 : Space, Unmoved w w1 →
        ((wireFaults env end_ (ws ++ bk) none w1).1 = none ∧ Unmoved w (wireFaults env end_ (ws ++ bk) none w1).2) ∨
        ∃ p x q rv, e :: ws = p ++ x :: q ∧ rv ≠ .success ∧
          (wireFaults env end_ (ws ++ bk) none w1).1 = some (x.start, rv) ∧
          Lowered (ids (x :: q)) w (wireFaults env end_ (ws ++ bk) none w1).2 := by
      intro w1 hu
      rcases ih' w1 hu.placed with ⟨h1, h2⟩ | ⟨p, x, q, rv, rfl, hrv, h1, h2⟩
      · exact .inl ⟨h1, hu.trans h2⟩
      · refine .inr ⟨e :: p, x, q, rv, rfl, hrv, h1, ?_⟩
        exact ⟨by rw [h2.slots, hu.slots], h2.placed, h2.minOffset.trans hu.minOffset, h2.maxOffset.trans hu.maxOffset⟩
    rw [List.cons_append, wireFaults]
    simp only
    rw [if_pos (hws e (by simp)), if_neg (by simp)]
    split_ifs with hone hrv
    · -- The fault of this entry fails.
      have hu := unmoved_faults env (env.faultWire e.start e.end_).1 w h
      have hlow := lowered_modify hu.placed e.id
      obtain ⟨h1, h2⟩ := wireFaults_failed env (fun x hx => hws x (List.mem_cons_of_mem e hx)) hn' hbk
        (e.start, (env.faultWire e.start e.end_).2) _ hlow.placed
      refine .inr ⟨[], e, ws, _, rfl, hrv, h1, ?_⟩
      have h3 := hlow.cons h2 he
      exact ⟨by rw [h3.slots, hu.slots]; rfl, h3.placed, h3.minOffset.trans hu.minOffset,
        h3.maxOffset.trans hu.maxOffset⟩
    · exact hgo _ (unmoved_faults env (env.faultWire e.start e.end_).1 w h)
    · exact hgo w (Unmoved.refl h)

end Pass2

end BsdKernel.VmMap
