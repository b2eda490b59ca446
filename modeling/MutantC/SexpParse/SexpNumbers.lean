import MutantC.SexpParse.SexpTokenizer

/-! The integers among the tokens: `atoi` keeps the number up to the largest `int`, and `is_int` takes the
empty text for one. -/

namespace MutantC.SexpParse
open CBuffer Decimal

/-- The text that the `switch(cur_state)` of `main` passes to `emit_token` as a symbol at the character `c`. -/
def symbolPassed (l : Lexer) (c : Byte) : Option (List Byte) :=
  if l.curState = .inSymbol ∧ (c = 41 ∨ c = 32) then l.sValBuf.bind cstr else none

/-- A token of the text `s` that is an integer is the number that `s` stands for, and is printed as that
number. -/
def CarriesNumber (s : List Byte) (tok : Token) : Prop :=
  ∀ i, tok = .atom (.int i) →
    s ≠ [] ∧ (∀ b ∈ s, IsDigit b) ∧ i = digitsValue s ∧
      dumpVal (atomVal (.int i)) = some (decimal (digitsValue s))

section
variable {l : Lexer} {c : Byte} {s : List Byte}

theorem isInt_iff : isInt s = true ↔ ∀ b ∈ s, IsDigit b := by
  rw [isInt, List.all_eq_true]
  exact forall₂_congr fun b _ => decide_eq_true_iff

theorem finish_symbol (h : l.sValBuf.bind cstr = some s) : l.finish .symbol =
    some ⟨.start, none, l.parsedTokens ++ [.atom (symbolAtom s)]⟩ := by
  obtain ⟨blk, hblk, hs⟩ := Option.bind_eq_some_iff.1 h
  unfold Lexer.finish Lexer.emit
  simp only [Option.bind_eq_bind, hblk, Option.bind_some, hs, emitToken_symbol]

theorem lexStep_symbolPassed (h : symbolPassed l c = some s) :
    ∃ l' rest, lexStep l c = some l' ∧
      l'.parsedTokens = l.parsedTokens ++ .atom (symbolAtom s) :: rest := by
  unfold symbolPassed at h
  split_ifs at h with hend
  obtain ⟨hstate, hc⟩ := hend
  have hfinish := finish_symbol h
  unfold lexStep
  simp only [hstate]
  rcases hc with rfl | rfl
  · refine ⟨_, [.right], congrArg (Option.map fun l : Lexer => l.emit .rparen [41]) hfinish, ?_⟩
    exact List.append_assoc _ _ _
  · exact ⟨_, [], hfinish, rfl⟩

theorem signedDecimal_natCast (n : ℕ) : signedDecimal n = decimal n := by
  rw [signedDecimal, if_neg (not_lt.2 (Int.natCast_nonneg n)), Int.natAbs_natCast]

theorem atoi_eq_iff : atoi s = digitsValue s ↔ (digitsValue s : ℤ) ≤ intMax :=
  ⟨fun h => h ▸ (atoi_mem_range s).2, atoi_of_le⟩

theorem carriesNumber_symbolAtom_iff : CarriesNumber s (.atom (symbolAtom s)) ↔
    s ≠ [] ∧ ((∀ b ∈ s, IsDigit b) → (digitsValue s : ℤ) ≤ intMax) := by
  unfold CarriesNumber symbolAtom
  split_ifs with hint
  · have hdigits := isInt_iff.1 hint
    constructor
    · intro h
      obtain ⟨hne, -, hvalue, -⟩ := h _ rfl
      exact ⟨hne, fun _ => atoi_eq_iff.1 hvalue⟩
    · rintro ⟨hne, hle⟩ i hi
      obtain rfl := Atom.int.inj (Brackets.Mark.atom.inj hi)
      have hvalue := atoi_of_le (hle hdigits)
      refine ⟨hne, hdigits, hvalue, ?_⟩
      rw [hvalue, atomVal, dumpVal, signedDecimal_natCast]
  · -- a text that is no row of digits gives no integer, and the empty one is such a row
    refine iff_of_true (fun i hi => by cases hi) ⟨?_, fun h => absurd (isInt_iff.2 h) hint⟩
    rintro rfl
    exact hint rfl

end

/-- The token of a text is right exactly when the text is not empty and no number above the largest
`int`. -/
theorem integer_token_iff {l : Lexer} {c : Byte} {s : List Byte} (h : symbolPassed l c = some s) :
    (∃ l' tok rest, lexStep l c = some l' ∧ l'.parsedTokens = l.parsedTokens ++ tok :: rest ∧
      CarriesNumber s tok) ↔ s ≠ [] ∧ ((∀ b ∈ s, IsDigit b) → (digitsValue s : ℤ) ≤ intMax) := by
  obtain ⟨l₁, rest₁, hstep, htoks⟩ := lexStep_symbolPassed h
  rw [← carriesNumber_symbolAtom_iff]
  constructor
  · rintro ⟨l', tok, rest, hstep', htoks', hnum⟩
    obtain rfl := Option.some.inj (hstep.symm.trans hstep')
    have htok := (List.cons.inj (List.append_cancel_left (htoks.symm.trans htoks'))).1
    exact htok ▸ hnum
  · intro hnum
    exact ⟨l₁, _, rest₁, hstep, htoks, hnum⟩

section
variable {txt : List Byte} {toks : List Token} {d : Byte}

theorem symbolPassed_collecting (htxt : 0 ∉ txt) (hlen : txt.length ≤ textMax) (hd : d = 32 ∨ d = 41) :
    symbolPassed (collecting .inSymbol txt toks) d = some txt := by
  unfold symbolPassed collecting
  rw [if_pos ⟨rfl, hd.symm⟩, Option.bind_some, cstr_padded htxt hlen]

theorem lexRun_decimal {n : ℕ} (hlen : (decimal n).length ≤ textMax) :
    lexRun (idle toks) (decimal n) = some (collecting .inSymbol (decimal n) toks) := by
  have hrun : lexRun (idle toks) (decimal n ++ []) = _ := lexRun_symbolText (isSymbolText_decimal n) []
  rw [List.append_nil, if_pos hlen] at hrun
  exact hrun

end

/-- `7` and a blank behind it. -/
theorem integer_token_iff_seven :
    ∃ l l' tok rest, lexRun lexStart [55] = some l ∧ symbolPassed l 32 = some [55] ∧
      lexStep l 32 = some l' ∧ l'.parsedTokens = l.parsedTokens ++ tok :: rest ∧
      CarriesNumber [55] tok := by
  have hpassed : symbolPassed (collecting .inSymbol [55] []) 32 = some [55] :=
    symbolPassed_collecting (by decide) one_le_textMax (Or.inl rfl)
  have hdec : decimal 7 = [55] := by decide
  have hrun : lexRun lexStart [55] = some (collecting .inSymbol [55] []) :=
    hdec ▸ lexRun_decimal (hdec ▸ one_le_textMax)
  have hle : (digitsValue [55] : ℤ) ≤ intMax := by decide +kernel
  obtain ⟨l', tok, rest, hstep, htoks, hnum⟩ :=
    (integer_token_iff hpassed).2 ⟨List.cons_ne_nil _ _, fun _ => hle⟩
  exact ⟨_, l', tok, rest, hrun, hpassed, hstep, htoks, hnum⟩

/-- `2147483648` gives the integer -2147483648, and a NUL and a blank give the integer 0 of no digits. -/
theorem integer_token_differs :
    (∃ l, lexRun lexStart (decimal 2147483648) = some l ∧
      symbolPassed l 32 = some (decimal 2147483648) ∧
      lexStep l 32 = some ⟨.start, none, [.atom (.int (-2147483648))]⟩ ∧
      ¬ CarriesNumber (decimal 2147483648) (.atom (.int (-2147483648)))) ∧
    ∃ l, lexRun lexStart [0] = some l ∧ symbolPassed l 32 = some [] ∧
      lexStep l 32 = some ⟨.start, none, [.atom (.int 0)]⟩ ∧
      ¬ CarriesNumber [] (.atom (.int 0)) := by
  constructor
  · have hsym := isSymbolText_decimal 2147483648
    have hlen : (decimal 2147483648).length ≤ textMax :=
      le_trans (length_decimal_le (k := 9) (by norm_num)) (by decide)
    have hatoi : atoi (decimal 2147483648) = -2147483648 := by
      unfold atoi
      rw [digitsValue_decimal]
      norm_num [longMax, Int.bmod]
    have htok : symbolAtom (decimal 2147483648) = .int (-2147483648) := by
      rw [symbolAtom, if_pos (isInt_decimal _), hatoi]
    refine ⟨_, lexRun_decimal hlen, symbolPassed_collecting (zero_notMem_of_isSymbolText hsym) hlen
      (Or.inl rfl), ?_, ?_⟩
    · rw [lexStep_endSymbol (zero_notMem_of_isSymbolText hsym) hlen (Or.inl rfl), emitToken_symbol, htok]
      rfl
    · intro hnum
      have hvalue := (hnum _ rfl).2.2.1
      rw [digitsValue_decimal] at hvalue
      exact absurd hvalue (by decide)
  · have hrun : lexRun lexStart [0] = some (collecting .inSymbol [] []) := by
      rw [lexRun_cons, lexStart, lexStep_newSymbol (by decide) (by decide),
        addText_zero List.not_mem_nil (Nat.zero_le _)]
      rfl
    refine ⟨_, hrun, symbolPassed_collecting List.not_mem_nil (Nat.zero_le _) (Or.inl rfl), ?_,
      fun hnum => (hnum _ rfl).1 rfl⟩
    rw [lexStep_endSymbol List.not_mem_nil (Nat.zero_le _) (Or.inl rfl), emitToken_symbol]
    rfl

end MutantC.SexpParse
