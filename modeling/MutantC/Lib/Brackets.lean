import Mathlib

/-! Sequences of brackets and atoms, and the forests they spell. A sequence spells a forest and goes on
behind its closing bracket, or ends with brackets still open. -/

namespace MutantC.Brackets

inductive Mark (α : Type*)
  | left
  | right
  | atom (a : α)
deriving DecidableEq

inductive Forest (α : Type*)
  | nil
  | atom (a : α) (tail : Forest α)
  | group (items tail : Forest α)
deriving DecidableEq

section
variable {α β : Type*}

def flatten : Forest α → List (Mark α)
  | .nil => []
  | .atom a tail => .atom a :: flatten tail
  | .group items tail => .left :: (flatten items ++ .right :: flatten tail)

def atoms : Forest α → List α
  | .nil => []
  | .atom a tail => a :: atoms tail
  | .group items tail => atoms items ++ atoms tail

def Forest.map (g : α → β) : Forest α → Forest β
  | .nil => .nil
  | .atom a tail => .atom (g a) (tail.map g)
  | .group items tail => .group (items.map g) (tail.map g)

/-- How many of `d` open brackets, and of those that follow, are open at the end; zero when the first of
them is closed. -/
def openDepth : ℕ → List (Mark α) → ℕ
  | 0, _ => 0
  | d + 1, [] => d + 1
  | d + 1, .left :: ts => openDepth (d + 2) ts
  | d + 1, .right :: ts => openDepth d ts
  | d + 1, .atom _ :: ts => openDepth (d + 1) ts

/-- `k` brackets of the sequence stay open, the rest is in pairs. -/
inductive Unclosed : ℕ → List (Mark α) → Prop
  | balanced (f : Forest α) : Unclosed 0 (flatten f)
  | opened (f : Forest α) {k : ℕ} {ts : List (Mark α)} (h : Unclosed k ts) :
      Unclosed (k + 1) (flatten f ++ .left :: ts)

theorem mem_flatten {a : α} {f : Forest α} : Mark.atom a ∈ flatten f ↔ a ∈ atoms f := by
  induction f with
  | nil => simp [flatten, atoms]
  | atom b tail ih => simp [flatten, atoms, ih]
  | group items tail ihi iht => simp [flatten, atoms, ihi, iht]

theorem map_eq_map_iff {g h : α → β} {f : Forest α} :
    f.map g = f.map h ↔ ∀ a ∈ atoms f, g a = h a := by
  induction f with
  | nil => simp [Forest.map, atoms]
  | atom b tail ih => simp [Forest.map, atoms, ih]
  | group items tail ihi iht => simp [Forest.map, atoms, ihi, iht, or_imp, forall_and]

theorem map_id (f : Forest α) : f.map id = f := by
  induction f with
  | nil => rfl
  | atom b tail ih => rw [Forest.map, ih, id]
  | group items tail ihi iht => rw [Forest.map, ihi, iht]

theorem openDepth_flatten (d : ℕ) (f : Forest α) (ts : List (Mark α)) :
    openDepth (d + 1) (flatten f ++ ts) = openDepth (d + 1) ts := by
  induction f generalizing d ts with
  | nil => rfl
  | atom a tail ih => exact ih d ts
  | group items tail ihi iht =>
    rw [flatten, List.cons_append, List.append_assoc, List.cons_append, openDepth, ihi (d + 1),
      openDepth, iht]

theorem Unclosed.openDepth {k : ℕ} {ts : List (Mark α)} (h : Unclosed k ts) (d : ℕ) :
    openDepth (d + 1) ts = d + 1 + k := by
  induction h generalizing d with
  | balanced f =>
    rw [← List.append_nil (flatten f), openDepth_flatten]
    rfl
  | opened f _ ih =>
    rw [openDepth_flatten, Brackets.openDepth, ih (d + 1)]
    omega

theorem Unclosed.cons_atom (a : α) {k : ℕ} {ts : List (Mark α)} (h : Unclosed k ts) :
    Unclosed k (.atom a :: ts) := by
  cases h with
  | balanced f => exact .balanced (.atom a f)
  | opened f h => exact .opened (.atom a f) h

theorem Unclosed.cons_group (items : Forest α) {k : ℕ} {ts : List (Mark α)} (h : Unclosed k ts) :
    Unclosed k (.left :: (flatten items ++ .right :: ts)) := by
  cases h with
  | balanced f => exact .balanced (.group items f)
  | opened f h =>
    have hopened := Unclosed.opened (.group items f) h
    rwa [flatten, List.cons_append, List.append_assoc, List.cons_append] at hopened

/-- Behind an open bracket a sequence comes to the closing one, or ends before it. -/
theorem closed_or_unclosed (ts : List (Mark α)) :
    (∃ f rest, ts = flatten f ++ .right :: rest) ∨ ∃ k, Unclosed k ts := by
  induction hn : ts.length using Nat.strong_induction_on generalizing ts with
  | h n ih =>
    subst hn
    rcases ts with - | ⟨- | - | a, ts⟩
    · exact Or.inr ⟨0, .balanced .nil⟩
    · -- a group, and then what follows it
      rcases ih _ (Nat.lt_succ_self _) ts rfl with ⟨items, rest, rfl⟩ | ⟨k, hk⟩
      · rcases ih _ (by simp; omega) rest rfl with ⟨f, rest', rfl⟩ | ⟨k, hk⟩
        · exact Or.inl ⟨.group items f, rest', by simp [flatten]⟩
        · exact Or.inr ⟨k, hk.cons_group items⟩
      · exact Or.inr ⟨k + 1, .opened .nil hk⟩
    · exact Or.inl ⟨.nil, ts, rfl⟩
    · rcases ih _ (Nat.lt_succ_self _) ts rfl with ⟨f, rest, rfl⟩ | ⟨k, hk⟩
      · exact Or.inl ⟨.atom a f, rest, rfl⟩
      · exact Or.inr ⟨k, hk.cons_atom a⟩

theorem flatten_right_inj {f g : Forest α} {ts us : List (Mark α)}
    (h : flatten f ++ .right :: ts = flatten g ++ .right :: us) : f = g ∧ ts = us := by
  induction f generalizing g ts us with
  | nil =>
    cases g with
    | nil => exact ⟨rfl, List.tail_eq_of_cons_eq h⟩
    | atom a tail => cases h
    | group items tail => cases h
  | atom a tail ih =>
    cases g with
    | nil => cases h
    | atom b tail' =>
      obtain ⟨hhead, htail⟩ := List.cons.inj h
      obtain ⟨rfl, rfl⟩ := ih htail
      obtain rfl := Mark.atom.inj hhead
      exact ⟨rfl, rfl⟩
    | group items tail' => cases h
  | group items tail ihi iht =>
    cases g with
    | nil => cases h
    | atom b tail' => cases h
    | group items' tail' =>
      simp only [flatten, List.cons_append, List.append_assoc, List.cons.injEq, true_and] at h
      obtain ⟨rfl, hrest⟩ := ihi h
      obtain ⟨rfl, rfl⟩ := iht hrest
      exact ⟨rfl, rfl⟩

theorem unclosed_of_cut {f : Forest α} {ts us : List (Mark α)} (hus : us ≠ [])
    (h : ts ++ us = flatten f ++ [.right]) : ∃ k, Unclosed k ts := by
  rcases closed_or_unclosed ts with ⟨g, rest, rfl⟩ | hopen
  · rw [List.append_assoc, List.cons_append] at h
    obtain ⟨-, hnil⟩ := flatten_right_inj h
    exact absurd (List.append_eq_nil_iff.1 hnil).2 hus
  · exact hopen

end

end MutantC.Brackets
