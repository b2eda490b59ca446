import MutantC.SexpParse.SexpRoundTrip

/-! The tokens of any input: a token list that is typed comes out as it is, and a blank before a delimiter
changes nothing but inside a symbol, where only the closing parenthesis is one. -/

namespace MutantC.SexpParse
open CBuffer Decimal Brackets Iteration

/-! ### Typed tokens -/

def tokenText : Token → List Byte
  | .left => [40]
  | .right => [41]
  | .atom (.symbol s) => s
  | .atom (.string s) => quoted s
  | .atom (.int i) => signedDecimal i

/-- Tokens as they are typed, a blank behind each. -/
def tokensText (ts : List Token) : List Byte := ts.flatMap fun t => tokenText t ++ [32]

def Typable : Token → Prop
  | .left => True
  | .right => True
  | .atom (.symbol s) =>
    s ≠ [] ∧ isInt s = false ∧ (∀ b ∈ s, b ≠ 0 ∧ b ≠ 13 ∧ b ≠ 10 ∧ b ≠ 32 ∧ b ≠ 41) ∧
      s.head? ≠ some 40 ∧ s.head? ≠ some 34 ∧ s.length ≤ 1022
  | .atom (.string s) => (∀ b ∈ s, b ≠ 0 ∧ b ≠ 13 ∧ b ≠ 10) ∧ s.length ≤ 1022
  | .atom (.int i) => 0 ≤ i ∧ i ≤ intMax

theorem isSymbolText_of_typable {s : List Byte} (h : Typable (.atom (.symbol s))) : IsSymbolText s := by
  obtain ⟨hne, -, hchars, h40, h34, -⟩ := h
  cases s with
  | nil => exact absurd rfl hne
  | cons c w =>
    have hc := hchars c List.mem_cons_self
    have hsym : SymbolStart c := ⟨⟨hc.1, hc.2.2.2.1, hc.2.2.2.2⟩, fun heq => h40 (congrArg some heq),
      fun heq => h34 (congrArg some heq), hc.2.1, hc.2.2.1⟩
    refine ⟨hsym, fun b hb => ?_⟩
    have hb' := hchars b (List.mem_cons_of_mem c hb)
    exact ⟨hb'.1, hb'.2.2.2.1, hb'.2.2.2.2⟩

theorem lexRun_token {t : Token} (h : Typable t) (toks : List Token) (rest : List Byte) :
    lexRun (idle toks) (tokenText t ++ 32 :: rest) = lexRun (idle (toks ++ [t])) rest := by
  rcases t with - | - | (s | s | i)
  · exact lexRun_blank _ rest
  · exact lexRun_blank _ rest
  · have hint : symbolAtom s = .symbol s := if_neg (by rw [h.2.1]; exact Bool.false_ne_true)
    have hlen : s.length ≤ textMax := h.2.2.2.2.2
    refine (lex_symbolText (isSymbolText_of_typable h) (Or.inl rfl)).trans ?_
    rw [if_pos hlen, emitToken_symbol, hint]
    exact lexRun_blank _ rest
  · have hzero : 0 ∉ s := fun hmem => (h.1 0 hmem).1 rfl
    have hlen : s.length ≤ textMax := h.2
    refine (lex_quoted hzero).trans ?_
    rw [if_pos hlen]
    exact lexRun_blank _ rest
  · have hlo : -(intMax + 1) ≤ i := le_trans (by decide) h.1
    refine (lex_symbolText (isSymbolText_signedDecimal i) (Or.inl rfl)).trans ?_
    rw [if_pos (length_signedDecimal_le hlo h.2), emitToken_symbol, (symbolAtom_signedDecimal_iff i).2 h]
    exact lexRun_blank _ rest

/-- Every list of typable tokens comes out of its text, and the tokenizer is back where it began. -/
theorem typed_tokens_emitted {ts : List Token} (h : ∀ t ∈ ts, Typable t) :
    lexRun lexStart (tokensText ts) = some ⟨.start, none, ts⟩ := by
  have hrun : ∀ toks, lexRun (idle toks) (tokensText ts) = some (idle (toks ++ ts)) := by
    induction ts with
    | nil => exact fun toks => by rw [List.append_nil]; rfl
    | cons t ts ih =>
      intro toks
      rw [tokensText, List.flatMap_cons, List.append_assoc, List.singleton_append,
        lexRun_token (h t List.mem_cons_self)]
      refine (ih (fun u hu => h u (List.mem_cons_of_mem t hu)) _).trans ?_
      rw [List.append_assoc, List.singleton_append]
  exact hrun []

/-- `( a"b "\"\\" 7 )` -/
theorem typed_tokens_emitted_list :
    lexRun lexStart
        (tokensText [.left, .atom (.symbol [97, 34, 98]), .atom (.string [34, 92]), .atom (.int 7), .right]) =
      some ⟨.start, none,
        [.left, .atom (.symbol [97, 34, 98]), .atom (.string [34, 92]), .atom (.int 7), .right]⟩ := by
  apply typed_tokens_emitted
  simp only [List.forall_mem_cons]
  refine ⟨trivial, ?_, ?_, ⟨by decide, by decide⟩, trivial, List.forall_mem_nil _⟩
  · refine ⟨by decide, by decide, ?_, by decide, by decide, by decide⟩
    simp only [List.forall_mem_cons]
    exact ⟨by decide, by decide, by decide, List.forall_mem_nil _⟩
  · refine ⟨?_, by decide⟩
    simp only [List.forall_mem_cons]
    exact ⟨by decide, by decide, List.forall_mem_nil _⟩

/-! ### Blanks before delimiters -/

/-- The tokens emitted on an input, up to the point where the code leaves its buffer. -/
def emitted (l : Lexer) : List Byte → List Token
  | [] => l.parsedTokens
  | c :: cs =>
    match lexStep l c with
    | none => l.parsedTokens
    | some l' => emitted l' cs

section Emitted
variable {l l' : Lexer} {c : Byte} {toks : List Token} {txt w : List Byte}

theorem emitted_step (h : lexStep l c = some l') (w : List Byte) :
    emitted l (c :: w) = emitted l' w := by
  rw [emitted, h]

theorem emitted_fail (h : lexStep l c = none) (w : List Byte) :
    emitted l (c :: w) = l.parsedTokens := by
  rw [emitted, h]

theorem emitted_append (h : lexRun l w = some l') (w' : List Byte) :
    emitted l (w ++ w') = emitted l' w' := by
  induction w generalizing l with
  | nil =>
    obtain rfl := Option.some.inj h
    rfl
  | cons c w ih =>
    rw [lexRun_cons] at h
    obtain ⟨l₁, hstep, hrest⟩ := Option.bind_eq_some_iff.1 h
    rw [List.cons_append, emitted_step hstep, ih hrest]

theorem emitted_extends (l : Lexer) (w : List Byte) : l.parsedTokens <+: emitted l w := by
  induction w generalizing l with
  | nil => exact List.prefix_rfl
  | cons c w ih =>
    cases hstep : lexStep l c with
    | none => rw [emitted_fail hstep]
    | some l' =>
      rw [emitted_step hstep]
      exact (lexStep_extends hstep).trans (ih l')

theorem emitted_endSymbol (htxt : 0 ∉ txt) (hlen : txt.length ≤ textMax) (hc : c = 32 ∨ c = 41)
    (w : List Byte) : emitted (collecting .inSymbol txt toks) (c :: w) =
      emitted (idle (toks ++ [.atom (symbolAtom txt)])) (c :: w) := by
  have hend : lexStep (collecting .inSymbol txt toks) c = _ := lexStep_endSymbol htxt hlen hc
  rw [emitToken_symbol] at hend
  obtain ⟨l, hl⟩ : ∃ l, lexStep (idle (toks ++ [.atom (symbolAtom txt)])) c = some l := by
    rcases hc with rfl | rfl <;> exact ⟨_, rfl⟩
  rw [emitted_step (hend.trans hl), emitted_step hl]

theorem emitted_storeSymbol (htxt : 0 ∉ txt) (hlen : txt.length ≤ textMax) (hc : SymbolChar c)
    (w : List Byte) :
    emitted (collecting .inSymbol txt toks) (c :: w) = toks ∨
      (txt ++ [c]).length ≤ textMax ∧ emitted (collecting .inSymbol txt toks) (c :: w) =
        emitted (collecting .inSymbol (txt ++ [c]) toks) w := by
  have hstep : lexStep (collecting .inSymbol txt toks) c = _ := lexStep_inSymbol hc.2.1 hc.2.2
  rw [addText_padded htxt hc.1 hlen] at hstep
  split_ifs at hstep with hfits
  · rw [Option.map_some] at hstep
    exact Or.inr ⟨hfits, emitted_step hstep w⟩
  · exact Or.inl (emitted_fail hstep w)

theorem emitted_inSymbol (htxt : 0 ∉ txt) (hlen : txt.length ≤ textMax) (w : List Byte) :
    emitted (collecting .inSymbol txt toks) w = toks ∨
      ∃ s, txt <+: s ∧
        toks ++ [.atom (symbolAtom s)] <+: emitted (collecting .inSymbol txt toks) w := by
  induction w generalizing txt with
  | nil => exact Or.inl rfl
  | cons c w ih =>
    by_cases hend : c = 32 ∨ c = 41
    · refine Or.inr ⟨txt, List.prefix_rfl, ?_⟩
      rw [emitted_endSymbol htxt hlen hend]
      exact emitted_extends (idle _) _
    obtain ⟨h32, h41⟩ := not_or.1 hend
    rcases eq_or_ne c 0 with rfl | hne
    · -- a NUL takes the place of the terminator
      have hstep : lexStep (collecting .inSymbol txt toks) 0 = _ := lexStep_inSymbol h32 h41
      rw [addText_zero htxt hlen, Option.map_some] at hstep
      rw [emitted_step hstep]
      exact ih htxt hlen
    rcases emitted_storeSymbol htxt hlen ⟨hne, h32, h41⟩ w with hfull | ⟨hfits, hstored⟩
    · exact Or.inl hfull
    rw [hstored]
    rcases ih (zero_notMem_snoc htxt hne) hfits with hnone | ⟨s, hs, hemit⟩
    · exact Or.inl hnone
    · exact Or.inr ⟨s, (List.prefix_append _ _).trans hs, hemit⟩

theorem emitted_goOn (htxt : 0 ∉ txt) (hlen : txt.length ≤ textMax) (hc : SymbolChar c) (w : List Byte) :
    emitted (collecting .inSymbol txt toks) (c :: w) = toks ∨
      ∃ s, txt ++ [c] <+: s ∧
        toks ++ [.atom (symbolAtom s)] <+: emitted (collecting .inSymbol txt toks) (c :: w) := by
  rcases emitted_storeSymbol htxt hlen hc w with hfull | ⟨hfits, hstored⟩
  · exact Or.inl hfull
  · rw [hstored]
    exact emitted_inSymbol (zero_notMem_snoc htxt hc.1) hfits w

end Emitted

def Delimiter (c : Byte) : Prop := c = 40 ∨ c = 41 ∨ c = 34 ∨ c = 13 ∨ c = 10

/-- A blank before the delimiter makes no difference to the tokens. -/
def BlankOptional (u : List Byte) (d : Byte) (v : List Byte) : Prop :=
  emitted lexStart (u ++ [d] ++ v ++ [32]) = emitted lexStart (u ++ [32, d] ++ v ++ [32])

theorem symbolAtom_ne_of_extended {txt s : List Byte} {d : Byte} (hd : ¬ IsDigit d)
    (hs : txt ++ [d] <+: s) : symbolAtom s ≠ symbolAtom txt := by
  obtain ⟨w, rfl⟩ := hs
  have hint : ¬ isInt (txt ++ [d] ++ w) = true := by
    intro hall
    exact hd (of_decide_eq_true (List.all_eq_true.1 hall d (by simp)))
  unfold symbolAtom
  rw [if_neg hint]
  split_ifs
  · exact nofun
  · intro heq
    have hlen := congrArg List.length (Atom.symbol.inj heq)
    simp only [List.length_append, List.length_singleton] at hlen
    omega

theorem Delimiter.not_isDigit {d : Byte} (hd : Delimiter d) : ¬ IsDigit d := by
  rcases hd with rfl | rfl | rfl | rfl | rfl <;> decide

theorem Delimiter.symbolChar {d : Byte} (hd : Delimiter d) (hne : d ≠ 41) : SymbolChar d := by
  rcases hd with rfl | rfl | rfl | rfl | rfl
  · decide
  · exact absurd rfl hne
  · decide
  · decide
  · decide

/-- Inside a symbol only the closing parenthesis ends it like a blank; the others are taken for a part
of it. -/
theorem blank_optional_iff {u : List Byte} {l : Lexer} (hu : lexRun lexStart u = some l)
    (hout : l.curState = .start ∨ l.curState = .inSymbol) {d : Byte} (hd : Delimiter d) (v : List Byte) :
    BlankOptional u d v ↔ l.curState = .start ∨ d = 41 := by
  have hstart : LexInv lexStart := LexInv.of_idle fun a ha => by cases ha
  have hinv := hstart.run hu
  unfold BlankOptional
  simp only [List.append_assoc]
  rw [emitted_append hu, emitted_append hu]
  simp only [List.cons_append]
  obtain ⟨st, buf, toks⟩ := l
  rcases hout with rfl | rfl
  · exact iff_of_true (emitted_step (c := 32) rfl (d :: (v ++ [32]))).symm (Or.inl rfl)
  obtain ⟨txt, hbuf, hlen, htxt⟩ := hinv.inSymbol rfl
  obtain rfl : buf = some (padded txt) := hbuf
  have hzero := Collects.zero_notMem htxt
  change emitted (collecting .inSymbol txt toks) (d :: (v ++ [32])) =
    emitted (collecting .inSymbol txt toks) (32 :: d :: (v ++ [32])) ↔ _
  have hblank : emitted (collecting .inSymbol txt toks) (32 :: d :: (v ++ [32])) =
      emitted (idle (toks ++ [.atom (symbolAtom txt)])) (d :: (v ++ [32])) :=
    emitted_endSymbol hzero hlen (Or.inl rfl) _
  by_cases hright : d = 41
  · refine iff_of_true ?_ (Or.inr hright)
    exact (emitted_endSymbol hzero hlen (Or.inr hright) _).trans hblank.symm
  · refine iff_of_false ?_ (fun h => h.elim nofun hright)
    intro heq
    have hemit := emitted_extends (idle (toks ++ [.atom (symbolAtom txt)])) (d :: (v ++ [32]))
    rw [← hblank, ← heq] at hemit
    rcases emitted_goOn hzero hlen (hd.symbolChar hright) (v ++ [32]) with hnone | ⟨s, hs, hemit'⟩
    · exact not_snoc_self (hnone ▸ hemit)
    · have hsame := Mark.atom.inj (snoc_prefix_inj hemit' hemit)
      exact symbolAtom_ne_of_extended hd.not_isDigit hs hsame

/-- `a(` with nothing and with a blank between. -/
theorem blank_optional_iff_letter :
    BlankOptional [97] 40 [] ↔ (collecting .inSymbol [97] []).curState = .start ∨ (40 : Byte) = 41 :=
  blank_optional_iff
    (show lexRun lexStart [97] = some (collecting .inSymbol [97] []) by decide +kernel)
    (Or.inr rfl) (Or.inl rfl) []

theorem parenthesis_in_symbol :
    emitted lexStart [97, 40, 32] = [.atom (.symbol [97, 40])] ∧
      emitted lexStart [97, 32, 40, 32] = [.atom (.symbol [97]), .left] ∧ ¬ BlankOptional [97] 40 [] := by
  have hwithout : emitted lexStart [97, 40, 32] = [.atom (.symbol [97, 40])] := by decide +kernel
  have hwith : emitted lexStart [97, 32, 40, 32] = [.atom (.symbol [97]), .left] := by decide +kernel
  refine ⟨hwithout, hwith, fun h => ?_⟩
  have heq := hwithout.symm.trans (h.trans hwith)
  exact absurd heq (by decide)

end MutantC.SexpParse
