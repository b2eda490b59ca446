import MutantC.Lib.Decimal

/-! `sscanf` with `%d`: white space, a sign, digits and the `int` that they give. -/

namespace MutantC.Scan
open CBuffer Decimal

def IsSpace (b : Byte) : Prop := b = 32 ∨ (9 ≤ b ∧ b ≤ 13)

instance : DecidablePred IsSpace := fun b => inferInstanceAs (Decidable (b = 32 ∨ (9 ≤ b ∧ b ≤ 13)))

def sign : List Byte → Bool × List Byte
  | [] => (false, [])
  | b :: s => if b = 45 then (true, s) else if b = 43 then (false, s) else (false, b :: s)

/-- `strtol`: a number outside a `long` gives the nearest one. -/
def strtol (neg : Bool) (ds : List Byte) : ℤ :=
  if neg then max (-(digitsValue ds : ℤ)) (-2 ^ 63) else min (digitsValue ds : ℤ) (2 ^ 63 - 1)

/-- One `%d`: the low 32 bits of the number and what follows it, or no match. -/
def scanInt (s : List Byte) : Option (BitVec 32 × List Byte) :=
  let (neg, s) := sign (s.dropWhile fun b => IsSpace b)
  let ds := s.takeWhile fun b => IsDigit b
  if ds = [] then none else some (BitVec.ofInt 32 (strtol neg ds), s.dropWhile fun b => IsDigit b)

/-- `sscanf(s, "%d;%d", &a, &b)`: what it stores in each, `none` where it stores nothing. -/
def scanPair (s : List Byte) : Option (BitVec 32) × Option (BitVec 32) :=
  match scanInt s with
  | none => (none, none)
  | some (a, s) => (some a, if s.head? = some 59 then (scanInt s.tail).map Prod.fst else none)

/-- A byte that no number goes on with and that no number or separator starts with. -/
def Stops (c : Byte) : Prop := ¬ IsSpace c ∧ ¬ IsDigit c ∧ c ≠ 45 ∧ c ≠ 43 ∧ c ≠ 59 ∧ c ≠ 0

instance : DecidablePred Stops := fun c =>
  inferInstanceAs (Decidable (¬ IsSpace c ∧ ¬ IsDigit c ∧ c ≠ 45 ∧ c ≠ 43 ∧ c ≠ 59 ∧ c ≠ 0))

section While
variable {α : Type*} {p : α → Prop} [DecidablePred p] {c : α}

theorem takeWhile_append_stop (hc : ¬ p c) (s t : List α) :
    (s ++ c :: t).takeWhile (fun b => p b) = s.takeWhile fun b => p b := by
  induction s with
  | nil => simp [hc]
  | cons b s ih => simp [List.takeWhile_cons, ih]

theorem dropWhile_append_stop (hc : ¬ p c) (s t : List α) :
    (s ++ c :: t).dropWhile (fun b => p b) = s.dropWhile (fun b => p b) ++ c :: t := by
  induction s with
  | nil => simp [hc]
  | cons b s ih =>
    rw [List.cons_append, List.dropWhile_cons, List.dropWhile_cons, ih]
    split_ifs
    · rfl
    · rfl

end While

section Stop
variable {c : Byte} (hc : Stops c) (s t : List Byte)
include hc

theorem sign_append_stop : sign (s ++ c :: t) = ((sign s).1, (sign s).2 ++ c :: t) := by
  obtain ⟨-, -, hminus, hplus, -, -⟩ := hc
  cases s with
  | nil => exact (if_neg hminus).trans (if_neg hplus)
  | cons b s =>
    rw [List.cons_append, sign, sign]
    split_ifs <;> rfl

theorem scanInt_append_stop :
    scanInt (s ++ c :: t) = (scanInt s).map fun r => (r.1, r.2 ++ c :: t) := by
  unfold scanInt
  simp only [dropWhile_append_stop hc.1, sign_append_stop hc, takeWhile_append_stop hc.2.1,
    dropWhile_append_stop hc.2.1]
  split_ifs
  · rfl
  · rfl

theorem scanPair_append_stop : scanPair (s ++ c :: t) = scanPair s := by
  have hsep : c ≠ 59 := hc.2.2.2.2.1
  unfold scanPair
  rw [scanInt_append_stop hc]
  rcases scanInt s with - | ⟨a, - | ⟨b, s'⟩⟩
  · rfl
  · simp [hsep]
  · simp only [Option.map_some, List.cons_append, List.head?_cons, List.tail_cons, scanInt_append_stop hc,
      Option.map_map]
    rfl

theorem scanPair_takeWhile_append_stop :
    scanPair ((s ++ c :: t).takeWhile (· ≠ 0)) = scanPair (s.takeWhile (· ≠ 0)) := by
  by_cases hzero : 0 ∈ s
  · obtain ⟨s₁, s₂, rfl⟩ := List.append_of_mem hzero
    have hnul : ¬ (0 : Byte) ≠ 0 := fun h => h rfl
    rw [List.append_assoc, List.cons_append, takeWhile_append_stop (p := (· ≠ 0)) hnul,
      takeWhile_append_stop (p := (· ≠ 0)) hnul]
  · have hall : ∀ b ∈ s, decide (b ≠ 0) = true := fun b hb => decide_eq_true fun heq => hzero (heq ▸ hb)
    have hstop : (c :: t).takeWhile (fun b => b ≠ 0) = c :: t.takeWhile fun b => b ≠ 0 :=
      List.takeWhile_cons_of_pos (decide_eq_true hc.2.2.2.2.2)
    rw [List.takeWhile_append_of_pos hall, hstop, List.takeWhile_eq_self_iff.2 hall,
      scanPair_append_stop hc]

end Stop

/-! ### The texts that match -/

/-- What `%d` takes: white space, a sign or none, and digits. -/
def NumberText (a : List Byte) : Prop :=
  ∃ sp sg ds, a = sp ++ (sg ++ ds) ∧ (∀ b ∈ sp, IsSpace b) ∧ (sg = [] ∨ sg = [43] ∨ sg = [45]) ∧
    ds ≠ [] ∧ ∀ d ∈ ds, IsDigit d

/-- A text that begins with two numbers and a `;` between them. -/
def IsPair (s : List Byte) : Prop :=
  ∃ a b t, NumberText a ∧ NumberText b ∧ s = a ++ 59 :: (b ++ t)

section Match
variable {s t : List Byte}

theorem not_isSpace_of_isDigit {d : Byte} (h : IsDigit d) : ¬ IsSpace d := by
  rintro (rfl | ⟨-, hle⟩)
  · exact absurd h (by decide)
  · exact absurd (UInt8.le_trans h.1 hle) (by decide)

theorem sign_of_isDigit {d : Byte} (h : IsDigit d) (w : List Byte) : sign (d :: w) = (false, d :: w) := by
  have hminus : d ≠ 45 := fun heq => absurd (heq ▸ h.1) (by decide)
  have hplus : d ≠ 43 := fun heq => absurd (heq ▸ h.1) (by decide)
  exact (if_neg hminus).trans (if_neg hplus)

theorem sign_split (s : List Byte) :
    ∃ sg, (sg = [] ∨ sg = [43] ∨ sg = [45]) ∧ s = sg ++ (sign s).2 := by
  cases s with
  | nil => exact ⟨[], Or.inl rfl, rfl⟩
  | cons b s =>
    rw [sign]
    split_ifs with hminus hplus
    · exact ⟨[45], Or.inr (Or.inr rfl), by rw [hminus]; rfl⟩
    · exact ⟨[43], Or.inr (Or.inl rfl), by rw [hplus]; rfl⟩
    · exact ⟨[], Or.inl rfl, rfl⟩

theorem exists_numberText {v : BitVec 32} (h : scanInt s = some (v, t)) :
    ∃ a, NumberText a ∧ s = a ++ t := by
  unfold scanInt at h
  simp only at h
  split_ifs at h with hds
  obtain ⟨-, rfl⟩ := Prod.mk.inj (Option.some.inj h)
  obtain ⟨sg, hsg, hsign⟩ := sign_split (s.dropWhile fun b => IsSpace b)
  refine ⟨_, ⟨s.takeWhile fun b => IsSpace b, sg, _, rfl, ?_, hsg, hds, ?_⟩, ?_⟩
  · intro b hb
    simpa using List.mem_takeWhile_imp hb
  · intro d hd
    simpa using List.mem_takeWhile_imp hd
  · rw [List.append_assoc, List.append_assoc, List.takeWhile_append_dropWhile, ← hsign,
      List.takeWhile_append_dropWhile]

theorem scanInt_eq {sp sg ds : List Byte} (hsp : ∀ b ∈ sp, IsSpace b) (hsg : sg = [] ∨ sg = [43] ∨ sg = [45])
    (hne : ds ≠ []) (hdigits : ∀ d ∈ ds, IsDigit d) (t : List Byte) :
    scanInt (sp ++ (sg ++ ds) ++ t) =
      some (BitVec.ofInt 32 (strtol (decide (sg = [45])) (ds ++ t.takeWhile fun b => IsDigit b)),
        t.dropWhile fun b => IsDigit b) := by
  obtain ⟨d, ds, rfl⟩ := List.exists_cons_of_ne_nil hne
  have hd := hdigits d List.mem_cons_self
  have hspace : (sp ++ (sg ++ d :: ds) ++ t).dropWhile (fun b => IsSpace b) = sg ++ (d :: ds ++ t) := by
    rw [List.append_assoc, List.dropWhile_append_of_pos fun b hb => decide_eq_true (hsp b hb),
      List.append_assoc]
    rcases hsg with rfl | rfl | rfl
    · exact List.dropWhile_cons_of_neg (by simpa using not_isSpace_of_isDigit hd)
    · rfl
    · rfl
  have hsign : sign (sg ++ (d :: ds ++ t)) = (decide (sg = [45]), d :: ds ++ t) := by
    rcases hsg with rfl | rfl | rfl
    · exact sign_of_isDigit hd _
    · rfl
    · rfl
  have hall : ∀ b ∈ d :: ds, decide (IsDigit b) = true := fun b hb => decide_eq_true (hdigits b hb)
  unfold scanInt
  simp only [hspace, hsign, List.takeWhile_append_of_pos hall, List.dropWhile_append_of_pos hall]
  exact if_neg (List.append_ne_nil_of_left_ne_nil hne _)

theorem NumberText.exists_scanInt {a : List Byte} (ha : NumberText a) (t : List Byte) :
    ∃ v, scanInt (a ++ t) = some (v, t.dropWhile fun b => IsDigit b) := by
  obtain ⟨sp, sg, ds, rfl, hsp, hsg, hne, hdigits⟩ := ha
  exact ⟨_, scanInt_eq hsp hsg hne hdigits t⟩

theorem scanPair_iff : (∃ a b, scanPair s = (some a, some b)) ↔ IsPair s := by
  constructor
  · rintro ⟨v, w, h⟩
    unfold scanPair at h
    cases hfirst : scanInt s with
    | none =>
      rw [hfirst] at h
      cases h
    | some r =>
      obtain ⟨v', s'⟩ := r
      rw [hfirst] at h
      obtain ⟨-, hsecond⟩ := Prod.mk.inj h
      split_ifs at hsecond with hhead
      obtain ⟨⟨w', t⟩, hscan, -⟩ := Option.map_eq_some_iff.1 hsecond
      obtain ⟨a, ha, rfl⟩ := exists_numberText hfirst
      obtain ⟨b, hb, htail⟩ := exists_numberText hscan
      refine ⟨a, b, t, ha, hb, ?_⟩
      rw [← htail, ← List.eq_cons_of_mem_head? hhead]
  · rintro ⟨a, b, t, ha, hb, rfl⟩
    obtain ⟨v, hfirst⟩ := ha.exists_scanInt (59 :: (b ++ t))
    obtain ⟨w, hsecond⟩ := hb.exists_scanInt t
    have hsep : (59 :: (b ++ t)).dropWhile (fun b => IsDigit b) = 59 :: (b ++ t) :=
      List.dropWhile_cons_of_neg (by decide)
    refine ⟨v, w, ?_⟩
    unfold scanPair
    rw [hfirst]
    simp only [hsep, List.head?_cons, List.tail_cons, if_pos, hsecond, Option.map_some]

end Match

/-! ### Numerals -/

def IsNumeral (ds : List Byte) : Prop := ds ≠ [] ∧ (∀ d ∈ ds, IsDigit d) ∧ digitsValue ds < 2 ^ 31

instance : DecidablePred IsNumeral := fun ds =>
  inferInstanceAs (Decidable (ds ≠ [] ∧ (∀ d ∈ ds, IsDigit d) ∧ digitsValue ds < 2 ^ 31))

section Numerals
variable {ds ds' t : List Byte}

theorem scanInt_numeral (h : IsNumeral ds) (ht : ∀ b ∈ t.head?, ¬ IsDigit b) :
    scanInt (ds ++ t) = some (BitVec.ofNat 32 (digitsValue ds), t) := by
  obtain ⟨hne, hdigits, hlt⟩ := h
  have hvalue : strtol false ds = (digitsValue ds : ℤ) := by
    unfold strtol
    rw [if_neg Bool.false_ne_true, min_eq_left (by omega)]
  have hscan := scanInt_eq (List.forall_mem_nil IsSpace) (Or.inl rfl) hne hdigits t
  rw [List.nil_append, List.nil_append] at hscan
  rw [hscan]
  cases t with
  | nil => simp [hvalue]
  | cons b t =>
    have hb : ¬ IsDigit b := ht b rfl
    simp [hb, hvalue]

theorem scanPair_numerals (h : IsNumeral ds) (h' : IsNumeral ds') : scanPair (ds ++ 59 :: ds') =
    (some (BitVec.ofNat 32 (digitsValue ds)), some (BitVec.ofNat 32 (digitsValue ds'))) := by
  have hsep : ∀ b ∈ (59 :: ds' : List Byte).head?, ¬ IsDigit b := by
    intro b hb
    obtain rfl := Option.some.inj hb
    decide
  have hfirst := scanInt_numeral h hsep
  have hsecond := scanInt_numeral (t := []) h' (by simp)
  rw [List.append_nil] at hsecond
  unfold scanPair
  rw [hfirst]
  simp only [List.head?_cons, List.tail_cons, if_pos, hsecond, Option.map_some]

end Numerals

end MutantC.Scan
