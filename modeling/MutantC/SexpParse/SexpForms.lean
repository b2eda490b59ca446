import MutantC.SexpParse.SexpReader

/-! Complete forms: `read_form` reads every one of them, and takes a list that runs out with a
parenthesis open for a complete one as well. -/

namespace MutantC.SexpParse
open CBuffer Brackets

inductive Form
  | atom (a : Atom)
  | list (items : Forest Atom)

namespace Form

def tokens : Form → List Token
  | .atom a => [.atom a]
  | .list items => .left :: (flatten items ++ [.right])

/-- The tree in the code's encoding: a list is a chain of cells, the empty one a cell without a value. -/
def val : Form → ParsedVal
  | .atom a => atomVal a
  | .list items => listVal (values items)

theorem val_ne_null (v : Form) : v.val ≠ .null := by
  cases v with
  | atom a => exact atomVal_ne_null a
  | list items => exact listVal_ne_null _

def last : Form → Token
  | .atom a => .atom a
  | .list _ => .right

theorem exists_init (v : Form) : ∃ init, v.tokens = init ++ [v.last] := by
  cases v with
  | atom a => exact ⟨[], rfl⟩
  | list items => exact ⟨_, List.cons_append.symm⟩

theorem readForm_tokens (v : Form) (rest : List Token) :
    readForm (v.tokens ++ rest) = some (v.val, v.last :: rest) := by
  cases v with
  | atom a => exact readForm_atom rest a
  | list items =>
    rw [tokens, List.cons_append, List.append_assoc, List.singleton_append]
    exact readForm_group items rest

end Form

/-- `read_form` reads every form, whatever follows it, and stops on its last token. -/
theorem read_form_correct (v : Form) (rest : List Token) :
    ∃ init last, v.tokens = init ++ [last] ∧
      readForm (v.tokens ++ rest) = some (v.val, last :: rest) := by
  obtain ⟨init, h⟩ := v.exists_init
  exact ⟨init, v.last, h, v.readForm_tokens rest⟩

/-! ### Lists that run out -/

/-- The tokens end with a parenthesis of the first form open. -/
def RunsOut (ts : List Token) : Prop := ∃ k u, ts = .left :: u ∧ Unclosed k u

def ClosedList (ts : List Token) : Prop := ∃ f rest, ts = .left :: (flatten f ++ .right :: rest)

/-- A tree comes back exactly for a complete form, and NULL where the tokens run out. -/
def AcceptsComplete (ts : List Token) : Prop :=
  ((∃ v t, readForm ts = some (v, t) ∧ v ≠ .null) ↔ ∃ f : Form, f.tokens <+: ts) ∧
    (RunsOut ts → ∃ t, readForm ts = some (.null, t))

/-- No unclosed proper beginning of the tokens is read as the tree that they are read as. -/
def TellsApart (ts : List Token) : Prop :=
  ∀ us, us <+: ts → us ≠ ts → RunsOut us →
    ¬ ∃ v t t', readForm us = some (v, t) ∧ readForm ts = some (v, t')

theorem readForm_ne_null_of_runsOut {ts : List Token} (h : RunsOut ts) {v : ParsedVal} {t : List Token}
    (hread : readForm ts = some (v, t)) : ∃ f, ts = .left :: flatten f ∧ v = listVal (values f) := by
  obtain ⟨k, u, rfl, hu⟩ := h
  cases k with
  | zero =>
    cases hu with
    | balanced f =>
      rw [readForm_balanced] at hread
      exact ⟨f, rfl, (Prod.mk.inj (Option.some.inj hread)).1.symm⟩
  | succ k =>
    rw [readForm_unclosed hu] at hread
    cases hread

theorem accepts_complete_iff (ts : List Token) : AcceptsComplete ts ↔ ¬ RunsOut ts := by
  constructor
  · rintro ⟨-, hnull⟩ hout
    obtain ⟨t, hread⟩ := hnull hout
    obtain ⟨f, -, hv⟩ := readForm_ne_null_of_runsOut hout hread
    exact listVal_ne_null _ hv.symm
  · intro hout
    refine ⟨?_, fun h => absurd h hout⟩
    constructor
    · rintro ⟨v, t, hread, hv⟩
      rcases readForm_cases hread with ⟨rfl, -⟩ | ⟨a, t', -, rfl⟩ | ⟨f, -, ⟨t', rfl⟩ | rfl⟩
      · exact absurd rfl hv
      · exact ⟨.atom a, t', rfl⟩
      · exact ⟨.list f, t', by simp [Form.tokens]⟩
      · exact absurd ⟨0, _, rfl, .balanced f⟩ hout
    · rintro ⟨v, rest, rfl⟩
      exact ⟨_, _, v.readForm_tokens rest, v.val_ne_null⟩

theorem tells_apart_iff (ts : List Token) : TellsApart ts ↔ ¬ ClosedList ts := by
  constructor
  · rintro h ⟨f, rest, rfl⟩
    refine h (.left :: flatten f) ⟨.right :: rest, rfl⟩ ?_ ⟨0, _, rfl, .balanced f⟩
      ⟨_, _, _, readForm_balanced f, readForm_group f rest⟩
    intro heq
    have hlen := congrArg List.length heq
    simp only [List.length_cons, List.length_append] at hlen
    omega
  · rintro hopen us hus hne hout ⟨v, t, t', hread, hread'⟩
    obtain ⟨g, rfl, rfl⟩ := readForm_ne_null_of_runsOut hout hread
    rcases readForm_cases hread' with ⟨hv, -⟩ | ⟨a, t'', hv, -⟩ | ⟨f, hv, ⟨t'', rfl⟩ | rfl⟩
    · exact listVal_ne_null _ hv
    · exact atomVal_ne_listVal a _ hv.symm
    · exact hopen ⟨f, t'', rfl⟩
    · exact hne (by rw [listVal_values_inj hv])

/-- An unclosed list is not rejected, and so a list and its beginning without the last parenthesis are
read as one tree. -/
theorem reads_complete_forms_iff (ts : List Token) :
    (AcceptsComplete ts ↔ ¬ RunsOut ts) ∧ (TellsApart ts ↔ ¬ ClosedList ts) ∧
      (AcceptsComplete ts ∧ TellsApart ts ↔ ts.head? ≠ some .left) := by
  refine ⟨accepts_complete_iff ts, tells_apart_iff ts, ?_⟩
  rw [accepts_complete_iff, tells_apart_iff, ← not_or, not_iff_not]
  constructor
  · rintro (⟨k, u, rfl, -⟩ | ⟨f, rest, rfl⟩) <;> rfl
  · intro h
    obtain ⟨u, rfl⟩ : ∃ u, ts = .left :: u := by
      cases ts with
      | nil => cases h
      | cons tok u => exact ⟨u, congrArg (· :: u) (Option.some.inj h)⟩
    rcases closed_or_unclosed u with ⟨f, rest, rfl⟩ | ⟨k, hk⟩
    · exact Or.inr ⟨f, rest, rfl⟩
    · exact Or.inl ⟨k, u, rfl, hk⟩

/-- `(a` is read as the list of `a`, like `(a)`; and `((` ends the program. -/
theorem unclosed_list_accepted :
    ¬ AcceptsComplete [.left, .atom (.symbol [97])] ∧
      ¬ TellsApart [.left, .atom (.symbol [97]), .right] ∧ ¬ AcceptsComplete [.left, .left] := by
  have hopen : RunsOut [.left, .atom (.symbol [97])] :=
    ⟨0, _, rfl, show Unclosed 0 (flatten (.atom (Atom.symbol [97]) .nil)) from .balanced _⟩
  refine ⟨?_, ?_, ?_⟩
  · rintro ⟨-, hnull⟩
    obtain ⟨t, hread⟩ := hnull hopen
    exact ParsedVal.noConfusion (Prod.mk.inj (Option.some.inj hread)).1
  · intro h
    exact h [.left, .atom (.symbol [97])] ⟨[.right], rfl⟩ (by decide) hopen ⟨_, _, _, rfl, rfl⟩
  · rintro ⟨-, hnull⟩
    obtain ⟨t, hread⟩ := hnull ⟨1, _, rfl, .opened .nil (.balanced .nil)⟩
    cases hread

end MutantC.SexpParse
