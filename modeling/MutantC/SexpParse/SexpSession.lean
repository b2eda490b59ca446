import MutantC.SexpParse.SexpTokenizer

/-! Whole sessions: lists typed one after another, each closed by `Enter`. The first is read as it is
written; its closing parenthesis stays behind and stops the second. -/

namespace MutantC.SexpParse
open CBuffer Decimal Brackets Iteration

structure SymbolText where
  text : List Byte
  isSymbol : IsSymbolText text
  notInt : isInt text = false
  noNewline : ∀ b ∈ text, b ≠ 10 ∧ b ≠ 13

structure StringText where
  text : List Byte
  zero_notMem : 0 ∉ text
  noNewline : ∀ b ∈ text, b ≠ 10 ∧ b ≠ 13

inductive Leaf
  | symbol (s : SymbolText)
  | string (s : StringText)
  | int (i : ℤ)

namespace Leaf

def atom : Leaf → Atom
  | symbol s => .symbol s.text
  | string s => .string s.text
  | int i => .int i

def chars : Leaf → List Byte
  | symbol s => s.text
  | string s => quoted s.text
  | int i => signedDecimal i

def token : Leaf → Atom
  | symbol s => .symbol s.text
  | string s => .string s.text
  | int i => symbolAtom (signedDecimal i)

def collected : Leaf → List Byte
  | symbol s => s.text
  | string s => s.text
  | int i => signedDecimal i

def Fits (l : Leaf) : Prop := l.collected.length ≤ textMax

instance : DecidablePred Fits := fun l => inferInstanceAs (Decidable (l.collected.length ≤ textMax))

/-- The text fits and an integer is one that `atoi` gives for its digits. -/
def Readable : Leaf → Prop
  | symbol s => s.text.length ≤ textMax
  | string s => s.text.length ≤ textMax
  | int i => 0 ≤ i ∧ i ≤ intMax

theorem lexesTo (l : Leaf) : LexesTo l.chars l.token l.Fits := by
  intro toks d rest hd
  cases l with
  | symbol s =>
    have htoken : symbolAtom s.text = .symbol s.text := if_neg (by rw [s.notInt]; exact Bool.false_ne_true)
    refine (lex_symbolText s.isSymbol hd).trans ?_
    rw [emitToken_symbol, htoken]
    rfl
  | string s => exact lex_quoted s.zero_notMem
  | int i =>
    refine (lex_symbolText (isSymbolText_signedDecimal i) hd).trans ?_
    rw [emitToken_symbol]
    rfl

theorem readable_iff (l : Leaf) : l.Readable ↔ l.Fits ∧ l.token = l.atom := by
  cases l with
  | symbol s => exact ⟨fun h => ⟨h, rfl⟩, fun h => h.1⟩
  | string s => exact ⟨fun h => ⟨h, rfl⟩, fun h => h.1⟩
  | int i =>
    have hiff := symbolAtom_signedDecimal_iff i
    constructor
    · intro h
      have hlo : -(intMax + 1) ≤ i := le_trans (by decide) h.1
      exact ⟨length_signedDecimal_le hlo h.2, hiff.2 h⟩
    · rintro ⟨-, h⟩
      exact hiff.1 h

end Leaf

def formChars (f : Forest Leaf) : List Byte := [40] ++ renderItems Leaf.chars f ++ [41]

def formTree (f : Forest Leaf) : ParsedVal := listVal (values (f.map Leaf.atom))

def enterForm (s : Session) (f : Forest Leaf) : Option Session := run mainStep s (formChars f ++ [13])

/-- Each `Enter` sets `parsed_ast` to the tree of the list before it. -/
def ReadsInTurn : Session → List (Forest Leaf) → Prop
  | _, [] => True
  | s, f :: fs => ∃ s', enterForm s f = some s' ∧ s'.parsedAst = formTree f ∧ ReadsInTurn s' fs

section Typing
variable {s : Session} {f : Forest Leaf} {toks : List Token}

theorem mainStep_char {c : Byte} (hc : c ≠ 10 ∧ c ≠ 13) (s : Session) :
    ∃ out expr, mainStep s c = (lexStep s.lexer c).map fun l => ⟨l, s.parsedAst, out, expr⟩ := by
  rw [← s.addExpr_lexer c, ← s.addExpr_parsedAst c]
  refine ⟨(s.addExpr c).stdout ++ clearScreen ++ [10, 13] ++ ([10, 13] ++ (s.addExpr c).exprbuf),
    (s.addExpr c).exprbuf, ?_⟩
  unfold mainStep
  rw [if_neg (not_or.2 hc), Option.map_eq_bind]
  rfl

theorem run_chars {w : List Byte} (hw : ∀ b ∈ w, b ≠ 10 ∧ b ≠ 13) (s : Session) :
    ∃ out expr, run mainStep s w = (lexRun s.lexer w).map fun l => ⟨l, s.parsedAst, out, expr⟩ := by
  induction w generalizing s with
  | nil => exact ⟨s.stdout, s.exprbuf, rfl⟩
  | cons c w ih =>
    obtain ⟨out, expr, hstep⟩ := mainStep_char (hw c List.mem_cons_self) s
    obtain ⟨out', expr', hrest⟩ := ih (fun b hb => hw b (List.mem_cons_of_mem _ hb))
      ⟨(lexStep s.lexer c).getD s.lexer, s.parsedAst, out, expr⟩
    refine ⟨out', expr', ?_⟩
    rw [run, hstep, lexRun_cons]
    cases hlex : lexStep s.lexer c with
    | none => rfl
    | some l =>
      rw [hlex] at hrest
      exact hrest

theorem chars_noNewline (l : Leaf) : ∀ b ∈ l.chars, b ≠ 10 ∧ b ≠ 13 := by
  cases l with
  | symbol s => exact s.noNewline
  | string s =>
    intro b hb
    simp only [Leaf.chars, quoted, List.mem_append, List.mem_singleton, List.mem_flatMap] at hb
    rcases hb with (rfl | ⟨c, hc, hb⟩) | rfl
    · decide
    · unfold escape at hb
      split_ifs at hb with hspecial
      · rcases List.mem_pair.1 hb with rfl | rfl
        · decide
        · exact s.noNewline _ hc
      · exact List.mem_singleton.1 hb ▸ s.noNewline _ hc
    · decide
  | int i =>
    intro b hb
    have hdigit : ∀ n, b ∈ decimal n → b ≠ 10 ∧ b ≠ 13 := fun n hn =>
      have hstart := symbolStart_of_isDigit (isDigit_of_mem_decimal hn)
      ⟨hstart.2.2.2.2, hstart.2.2.2.1⟩
    change b ∈ signedDecimal i at hb
    unfold signedDecimal at hb
    split_ifs at hb with hneg
    · rcases List.mem_cons.1 hb with rfl | hb
      · decide
      · exact hdigit _ hb
    · exact hdigit _ hb

theorem renderItems_noNewline (f : Forest Leaf) :
    ∀ b ∈ renderItems Leaf.chars f, b ≠ 10 ∧ b ≠ 13 := by
  have hsep : ∀ g : Forest Leaf, ∀ b ∈ separator g, b ≠ 10 ∧ b ≠ 13 := by
    intro g b hb
    cases g with
    | nil => cases hb
    | atom a tail => exact List.mem_singleton.1 hb ▸ by decide
    | group items tail => exact List.mem_singleton.1 hb ▸ by decide
  induction f with
  | nil => exact fun b hb => by cases hb
  | atom a tail ih =>
    intro b hb
    rw [renderItems, List.mem_append, List.mem_append] at hb
    rcases hb with (hb | hb) | hb
    · exact chars_noNewline a b hb
    · exact hsep tail b hb
    · exact ih b hb
  | group items tail ihi iht =>
    intro b hb
    simp only [renderItems, List.mem_append, List.mem_singleton] at hb
    rcases hb with (((rfl | hb) | rfl) | hb) | hb
    · decide
    · exact ihi b hb
    · decide
    · exact hsep tail b hb
    · exact iht b hb

theorem formChars_noNewline (f : Forest Leaf) : ∀ b ∈ formChars f, b ≠ 10 ∧ b ≠ 13 := by
  intro b hb
  simp only [formChars, List.mem_append, List.mem_singleton] at hb
  rcases hb with (rfl | hb) | rfl
  · decide
  · exact renderItems_noNewline f b hb
  · decide

theorem lex_form (toks : List Token) (f : Forest Leaf) : lexRun (idle toks) (formChars f) =
    if ∀ l ∈ atoms f, l.Fits then
      some (idle (toks ++ .left :: (flatten (f.map Leaf.token) ++ [.right])))
    else none := by
  have hitems := lex_items (fun l (_ : l ∈ atoms f) => l.lexesTo) (toks ++ [.left]) []
  rw [formChars, List.append_assoc, List.singleton_append, lexRun_left, hitems, lexRun_right]
  simp only [List.append_assoc, List.singleton_append]
  rfl

theorem enterForm_eq (hs : s.lexer = idle toks) (f : Forest Leaf) :
    ∃ out expr, enterForm s f = if ∀ l ∈ atoms f, l.Fits then
      mainStep ⟨idle (toks ++ .left :: (flatten (f.map Leaf.token) ++ [.right])), s.parsedAst, out,
        expr⟩ 13
    else none := by
  obtain ⟨out, expr, hrun⟩ := run_chars (formChars_noNewline f) s
  refine ⟨out, expr, ?_⟩
  rw [enterForm, run_append, hrun, hs, lex_form]
  split_ifs
  · rw [Option.map_some, Option.bind_some, run]
    exact Option.bind_fun_some _
  · rfl

theorem enterForm_first (hs : s.lexer = idle []) (hfits : ∀ l ∈ atoms f, l.Fits) :
    ∃ out expr, enterForm s f =
      some ⟨idle [.right], listVal (values (f.map Leaf.token)), out, expr⟩ := by
  obtain ⟨out, expr, henter⟩ := enterForm_eq hs f
  rw [if_pos hfits, List.nil_append] at henter
  obtain ⟨out', hdump⟩ := dumpState_eq
    (s := ⟨idle (Mark.left :: (flatten (f.map Leaf.token) ++ [Mark.right])), s.parsedAst, out, expr⟩)
    (readForm_group (f.map Leaf.token) []) (dumpVal_values _)
  refine ⟨out' ++ [10, 13] ++ ([10, 13] ++ expr), expr, henter.trans ?_⟩
  unfold mainStep
  rw [if_pos (Or.inr rfl), hdump]
  rfl

/-- A list behind a closing parenthesis is not read: `read_form` returns NULL, and `dump_val` follows
it. -/
theorem enterForm_behind_right (hs : s.lexer = idle (.right :: toks)) : enterForm s f = none := by
  obtain ⟨out, expr, henter⟩ := enterForm_eq hs f
  rw [henter]
  split_ifs
  · unfold mainStep
    rw [if_pos (Or.inr rfl)]
    have hnot := (dump_state_completes_iff ⟨idle (.right :: toks ++
      .left :: (flatten (f.map Leaf.token) ++ [.right])), s.parsedAst, out, expr⟩).not.2 id
    rw [Option.eq_none_iff_forall_ne_some.2 fun s' hs' => hnot ⟨s', hs'⟩]
    rfl
  · rfl

theorem enterForm_unfit (hs : s.lexer = idle toks) (hunfit : ¬ ∀ l ∈ atoms f, l.Fits) :
    enterForm s f = none := by
  obtain ⟨out, expr, henter⟩ := enterForm_eq hs f
  rw [henter, if_neg hunfit]

theorem formTree_eq_iff : listVal (values (f.map Leaf.token)) = formTree f ↔
    ∀ l ∈ atoms f, l.token = l.atom := by
  rw [← map_eq_map_iff]
  exact ⟨listVal_values_inj, fun h => by rw [h]; rfl⟩

end Typing

/-- The lists of a session are read in turn exactly when there is at most one, and its texts fit and its
integers are in the range that is read back. -/
theorem reads_in_turn_iff (fs : List (Forest Leaf)) :
    ReadsInTurn mainStart fs ↔ fs.length ≤ 1 ∧ ∀ f ∈ fs, ∀ l ∈ atoms f, l.Readable := by
  cases fs with
  | nil => exact iff_of_true trivial ⟨Nat.zero_le 1, fun f hf => by cases hf⟩
  | cons f fs =>
    have hstart : mainStart.lexer = idle [] := rfl
    constructor
    · rintro ⟨s, hs, hast, hrest⟩
      have hfits : ∀ l ∈ atoms f, l.Fits := by
        by_contra hunfit
        rw [enterForm_unfit hstart hunfit] at hs
        cases hs
      obtain ⟨out, expr, hfirst⟩ := enterForm_first hstart hfits
      obtain rfl := Option.some.inj (hfirst.symm.trans hs)
      have htokens := formTree_eq_iff.1 hast
      cases fs with
      | nil =>
        refine ⟨le_rfl, fun g hg l hl => ?_⟩
        obtain rfl := List.mem_singleton.1 hg
        exact l.readable_iff.2 ⟨hfits l hl, htokens l hl⟩
      | cons g gs =>
        obtain ⟨s', hs', -⟩ := hrest
        rw [enterForm_behind_right rfl] at hs'
        cases hs'
    · rintro ⟨hlen, hreadable⟩
      obtain rfl : fs = [] := List.eq_nil_of_length_eq_zero (Nat.le_zero.1 (Nat.le_of_succ_le_succ hlen))
      have hleaves := hreadable f List.mem_cons_self
      obtain ⟨out, expr, hfirst⟩ := enterForm_first hstart fun l hl => (l.readable_iff.1 (hleaves l hl)).1
      exact ⟨_, hfirst, formTree_eq_iff.2 fun l hl => (l.readable_iff.1 (hleaves l hl)).2, trivial⟩

/-- `()`, `Enter`, `()`, `Enter` -/
theorem second_list_faults : ¬ ReadsInTurn mainStart [.nil, .nil] := by
  rintro ⟨s, hs, -, s', hs', -⟩
  have hrun : (enterForm mainStart .nil).bind (enterForm · .nil) = none := rfl
  rw [hs, Option.bind_some, hs'] at hrun
  cases hrun

end MutantC.SexpParse
