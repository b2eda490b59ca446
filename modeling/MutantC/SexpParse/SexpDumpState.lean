import MutantC.SexpParse.SexpReader

/-! What `dump_state` prints for a value that was read, exactly when it gets through, and what it leaves
of an expression that is not finished. -/

namespace MutantC.SexpParse
open CBuffer Decimal Brackets Iteration

def separator {α : Type*} : Forest α → List Byte
  | .nil => []
  | _ => [32]

def renderItems {α : Type*} (leaf : α → List Byte) : Forest α → List Byte
  | .nil => []
  | .atom a tail => leaf a ++ separator tail ++ renderItems leaf tail
  | .group items tail =>
    [40] ++ renderItems leaf items ++ [41] ++ separator tail ++ renderItems leaf tail

def atomText : Atom → List Byte
  | .symbol s => s
  | .string s => [34] ++ s ++ [34]
  | .int i => signedDecimal i

theorem dumpVal_atomVal (a : Atom) : dumpVal (atomVal a) = some (atomText a) := by
  cases a <;> rfl

theorem separator_values (f : Forest Atom) :
    (if consList (values f) ≠ .null then [32] else []) = separator f := by
  cases f with
  | nil => exact if_neg (not_not.2 rfl)
  | atom a tail => exact if_pos (fun h => by cases h)
  | group items tail => exact if_pos (fun h => by cases h)

theorem dumpVal_listVal {vs : List ParsedVal} {text : List Byte}
    (h : dumpCells (consList vs) = some text) : dumpVal (listVal vs) = some ([40] ++ text ++ [41]) := by
  cases vs with
  | nil =>
    obtain rfl := Option.some.inj h
    rfl
  | cons v vs => exact congrArg (Option.map fun text => [40] ++ text ++ [41]) h

theorem dumpCells_values (f : Forest Atom) :
    dumpCells (consList (values f)) = some (renderItems atomText f) := by
  induction f with
  | nil => rfl
  | atom a tail ih =>
    rw [values, consList, dumpCells, cellText, if_pos (atomVal_ne_null a), dumpVal_atomVal, ih]
    simp only [Option.bind_eq_bind, Option.bind_some, separator_values]
    rfl
  | group items tail ihi iht =>
    rw [values, consList, dumpCells, cellText, if_pos (listVal_ne_null _), dumpVal_listVal ihi, iht]
    simp only [Option.bind_eq_bind, Option.bind_some, separator_values]
    rfl

theorem dumpVal_values (f : Forest Atom) :
    dumpVal (listVal (values f)) = some ([40] ++ renderItems atomText f ++ [41]) :=
  dumpVal_listVal (dumpCells_values f)

section DumpState
variable {s s' : Session}

theorem dumpState_some (h : dumpState s = some s') :
    ∃ t text, readForm s.lexer.parsedTokens = some (s'.parsedAst, t) ∧
      dumpVal s'.parsedAst = some text ∧ s'.lexer = { s.lexer with parsedTokens := t } := by
  unfold dumpState at h
  simp only [Option.bind_eq_bind] at h
  obtain ⟨p, hread, h⟩ := Option.bind_eq_some_iff.1 h
  obtain ⟨text, hdump, h⟩ := Option.bind_eq_some_iff.1 h
  obtain rfl := Option.some.inj h
  exact ⟨p.2, text, hread, hdump, rfl⟩

theorem dumpState_eq {v : ParsedVal} {t : List Token} {text : List Byte}
    (hread : readForm s.lexer.parsedTokens = some (v, t)) (hdump : dumpVal v = some text) :
    ∃ out, dumpState s =
      some ⟨{ s.lexer with parsedTokens := t }, v, out, s.exprbuf⟩ := by
  have hread' : readForm ((s.printf clearScreen).printf (decimal (s.printf
      clearScreen).lexer.parsedTokens.length ++ parsedTokensText)).lexer.parsedTokens = some (v, t) :=
    hread
  unfold dumpState
  simp only [Option.bind_eq_bind, hread', Option.bind_some, hdump]
  exact ⟨_, rfl⟩

theorem dumpState_none (hread : readForm s.lexer.parsedTokens = none) : dumpState s = none := by
  by_contra hne
  obtain ⟨s', hs'⟩ := Option.ne_none_iff_exists'.1 hne
  obtain ⟨t, text, hsome, -⟩ := dumpState_some hs'
  rw [hread] at hsome
  cases hsome

/-- The first form of the tokens is there and is no closing parenthesis, and when it is a list at most
one parenthesis is open where the tokens end. -/
def DumpSafe : List Token → Prop
  | [] => False
  | .right :: _ => False
  | .atom _ :: _ => True
  | .left :: t => openDepth 1 t ≤ 1

instance : DecidablePred DumpSafe
  | [] => inferInstanceAs (Decidable False)
  | .right :: _ => inferInstanceAs (Decidable False)
  | .atom _ :: _ => inferInstanceAs (Decidable True)
  | .left :: t => inferInstanceAs (Decidable (openDepth 1 t ≤ 1))

/-- `dump_state` follows no NULL exactly on the safe token lists. -/
theorem dump_state_completes_iff (s : Session) :
    (∃ s', dumpState s = some s') ↔ DumpSafe s.lexer.parsedTokens := by
  generalize htokens : s.lexer.parsedTokens = tokens
  have hnull : readForm tokens = none → ¬ ∃ s', dumpState s = some s' := by
    rintro hread ⟨s', hs'⟩
    rw [← htokens] at hread
    rw [dumpState_none hread] at hs'
    cases hs'
  rcases tokens with - | ⟨- | - | a, t⟩
  · exact iff_of_false (hnull readForm_null) id
  · -- the list is closed, ends with one parenthesis open, or ends with more
    rcases closed_or_unclosed t with ⟨f, rest, rfl⟩ | ⟨k, hk⟩
    · apply iff_of_true
      · obtain ⟨out, hs'⟩ := dumpState_eq (htokens ▸ readForm_group f rest) (dumpVal_values f)
        exact ⟨_, hs'⟩
      · change openDepth (0 + 1) (flatten f ++ .right :: rest) ≤ 1
        rw [openDepth_flatten, openDepth, openDepth]
        exact Nat.zero_le 1
    · cases k with
      | zero =>
        apply iff_of_true
        · cases hk with
          | balanced f =>
            obtain ⟨out, hs'⟩ := dumpState_eq (htokens ▸ readForm_balanced f) (dumpVal_values f)
            exact ⟨_, hs'⟩
        · exact (hk.openDepth 0).le
      | succ k =>
        apply iff_of_false (hnull (readForm_unclosed hk))
        change ¬ openDepth (0 + 1) t ≤ 1
        rw [hk.openDepth 0]
        omega
  · apply iff_of_false _ id
    rintro ⟨s', hs'⟩
    obtain ⟨t', text, hread, hdump, -⟩ := dumpState_some hs'
    rw [htokens, readForm_right] at hread
    rw [← (Prod.mk.inj (Option.some.inj hread)).1] at hdump
    cases hdump
  · apply iff_of_true _ trivial
    obtain ⟨out, hs'⟩ := dumpState_eq (htokens ▸ readForm_atom t a) (dumpVal_atomVal a)
    exact ⟨_, hs'⟩

/-- `Enter` with no tokens, behind a stray `)`, and behind `((`. -/
theorem enter_faults :
    run mainStep mainStart [13] = none ∧ run mainStep mainStart [41, 13] = none ∧
      run mainStep mainStart [40, 40, 13] = none := ⟨rfl, rfl, rfl⟩

/-- After `Enter` the tokens typed so far are still there, or a later `read_form` at least comes to the
tree of the whole list once the rest of it is typed. -/
def KeepsTyped (s : Session) (f : Forest Atom) (typed rest : List Token) : Prop :=
  ∃ s', dumpState s = some s' ∧ (s'.lexer.parsedTokens = typed ∨
    ∃ t, readForm (s'.lexer.parsedTokens ++ rest) = some (listVal (values f), t))

theorem exists_left_of_cut {f : Forest Atom} {typed rest : List Token} (htyped : typed ≠ [])
    (hcut : typed ++ rest = .left :: (flatten f ++ [.right])) :
    ∃ t, typed = .left :: t ∧ t ++ rest = flatten f ++ [.right] := by
  cases typed with
  | nil => exact absurd rfl htyped
  | cons tok t =>
    obtain ⟨rfl, htail⟩ := List.cons.inj hcut
    exact ⟨t, rfl, htail⟩

theorem readForm_rest_ne {f : Forest Atom} {t rest r : List Token}
    (hcut : t ++ rest = flatten f ++ [.right]) :
    readForm rest ≠ some (listVal (values f), r) := by
  intro hread
  have hlen := congrArg List.length hcut
  simp only [List.length_append, List.length_singleton] at hlen
  rcases readForm_cases hread with ⟨hnull, -⟩ | ⟨a, -, hatom, -⟩ | ⟨g, hval, hrest⟩
  · exact listVal_ne_null _ hnull
  · exact atomVal_ne_listVal a _ hatom.symm
  · obtain rfl := listVal_values_inj hval
    rcases hrest with ⟨t', rfl⟩ | rfl
    · simp only [List.length_cons, List.length_append] at hlen
      omega
    · -- nothing was typed before, and then one more parenthesis opens than closes
      simp only [List.length_cons] at hlen
      obtain rfl := List.length_eq_zero_iff.1 (show t.length = 0 by omega)
      have hdepth := congrArg (openDepth (0 + 1)) hcut
      rw [openDepth_flatten, List.nil_append, openDepth, ← List.append_nil (flatten f),
        openDepth_flatten] at hdepth
      cases hdepth

/-- `Enter` inside a list loses what was typed of it: with one parenthesis open no token is left, with
more `dump_state` does not return. -/
theorem enter_loses_typed (f : Forest Atom) {typed rest : List Token} (htyped : typed ≠ [])
    (hrest : rest ≠ []) (hcut : typed ++ rest = .left :: (flatten f ++ [.right])) {s : Session}
    (hs : s.lexer.parsedTokens = typed) : ¬ KeepsTyped s f typed rest := by
  obtain ⟨t, rfl, htail⟩ := exists_left_of_cut htyped hcut
  obtain ⟨k, hk⟩ := unclosed_of_cut hrest htail
  rintro ⟨s', hdump, hkept⟩
  obtain ⟨t', text, hread, -, hlexer⟩ := dumpState_some hdump
  rw [hs] at hread
  cases k with
  | succ k =>
    rw [readForm_unclosed hk] at hread
    cases hread
  | zero =>
    have hempty : s'.lexer.parsedTokens = [] := by
      cases hk with
      | balanced g =>
        rw [readForm_balanced] at hread
        rw [hlexer, ← (Prod.mk.inj (Option.some.inj hread)).2]
    rw [hempty] at hkept
    rcases hkept with hkept | ⟨r, hlater⟩
    · exact List.cons_ne_nil _ _ hkept.symm
    · exact readForm_rest_ne htail hlater

theorem enter_loses_typed_symbol :
    ¬ KeepsTyped ⟨⟨.start, none, [.left, .atom (.symbol [97])]⟩, .null, [], [40, 97]⟩
      (.atom (.symbol [97]) .nil) [.left, .atom (.symbol [97])] [.right] :=
  enter_loses_typed _ (by simp) (by simp) rfl rfl

/-- Typing `(()` and `Enter`: the three tokens are gone. -/
theorem open_list_is_dropped :
    ∃ s, run mainStep mainStart [40, 40, 41] = some s ∧
      s.lexer.parsedTokens = [.left, .left, .right] ∧
      ∃ s', dumpState s = some s' ∧ s'.lexer.parsedTokens = [] :=
  ⟨_, rfl, rfl, _, rfl, rfl⟩

end DumpState

end MutantC.SexpParse
