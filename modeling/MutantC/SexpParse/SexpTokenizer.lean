import MutantC.SexpParse.SexpDumpState

/-! The tokenizer on the text of a form: what it collects in the 1024-byte buffer, the token each leaf
gives, and the tokens of a whole list. -/

namespace MutantC.SexpParse
open CBuffer Decimal Brackets Iteration

/-! ### The token buffer -/

def padded (txt : List Byte) : List Byte := txt ++ List.replicate (sValBufSize - txt.length) 0

/-- A longer text makes the code write behind the end of the buffer. -/
def textMax : ℕ := sValBufSize - 2

theorem one_le_textMax : 1 ≤ textMax := by decide

section Buffer
variable {txt : List Byte} {c : Byte}

theorem length_padded (h : txt.length ≤ textMax) : (padded txt).length = sValBufSize := by
  have hmax : textMax ≤ sValBufSize := Nat.sub_le _ _
  rw [padded, List.length_append, List.length_replicate]
  omega

theorem padded_eq (h : txt.length ≤ textMax) :
    padded txt = txt ++ 0 :: 0 :: List.replicate (sValBufSize - txt.length - 2) 0 := by
  have hmax : textMax + 2 = sValBufSize := rfl
  obtain ⟨n, hn⟩ := Nat.exists_eq_add_of_le (show txt.length + 2 ≤ sValBufSize by omega)
  rw [padded, show sValBufSize - txt.length = n + 2 by omega]
  rfl

theorem cstr_padded (hzero : 0 ∉ txt) (h : txt.length ≤ textMax) : cstr (padded txt) = some txt := by
  rw [padded_eq h]
  exact cstr_append hzero _

theorem store_padded (h : txt.length ≤ textMax) :
    store (padded txt) txt.length c =
      some (txt ++ [c] ++ 0 :: List.replicate (sValBufSize - txt.length - 2) 0) := by
  rw [store, if_pos, padded_eq h, List.set_append_right _ _ le_rfl, Nat.sub_self, List.set_cons_zero,
    List.append_assoc, List.singleton_append]
  rw [length_padded h]
  exact lt_of_le_of_lt h (by decide)

theorem store_zero_padded {i : ℕ} (hi : txt.length ≤ i) (hsize : i < sValBufSize)
    (h : txt.length ≤ textMax) : store (padded txt) i 0 = some (padded txt) := by
  rw [store, if_pos (by rwa [length_padded h])]
  rw [padded, List.set_append_right _ _ hi, List.set_replicate_self]

theorem padded_snoc (h : txt.length ≤ textMax) :
    txt ++ [c] ++ 0 :: List.replicate (sValBufSize - txt.length - 2) 0 = padded (txt ++ [c]) := by
  have hmax : textMax + 2 = sValBufSize := rfl
  have hlen : (txt ++ [c]).length = txt.length + 1 := List.length_append
  rw [padded, hlen, show sValBufSize - (txt.length + 1) = sValBufSize - txt.length - 2 + 1 by omega,
    List.replicate_succ]

theorem addText_padded (hzero : 0 ∉ txt) (hc : c ≠ 0) (h : txt.length ≤ textMax) :
    addText (padded txt) c =
      if (txt ++ [c]).length ≤ textMax then some (padded (txt ++ [c])) else none := by
  have hsnoc : cstr (txt ++ [c] ++ 0 :: List.replicate (sValBufSize - txt.length - 2) 0) =
      some (txt ++ [c]) := by
    apply cstr_append
    exact zero_notMem_snoc hzero hc
  unfold addText
  simp only [Option.bind_eq_bind, strlen_eq (cstr_padded hzero h), Option.bind_some, store_padded h,
    strlen_eq hsnoc]
  rw [padded_snoc h]
  split_ifs with hfits
  · exact store_zero_padded (Nat.le_succ _) (Nat.lt_of_le_of_lt (Nat.succ_le_succ hfits) (by decide))
      hfits
  · rw [store, if_neg]
    have hmax : textMax + 2 = sValBufSize := rfl
    rw [← padded_snoc h]
    simp only [List.length_append, List.length_cons, List.length_replicate, List.length_nil] at hfits ⊢
    omega

theorem addText_zero (hzero : 0 ∉ txt) (h : txt.length ≤ textMax) :
    addText (padded txt) 0 = some (padded txt) := by
  have hcstr := strlen_eq (cstr_padded hzero h)
  have hmax : textMax + 2 = sValBufSize := rfl
  unfold addText
  simp only [Option.bind_eq_bind, hcstr, Option.bind_some,
    store_zero_padded le_rfl (show txt.length < sValBufSize by omega) h]
  exact store_zero_padded (Nat.le_succ _) (by omega) h

theorem callocBuf_eq : callocBuf = padded [] := rfl

theorem startText_eq (c : Byte) : startText callocBuf c = addText (padded []) c := by
  have hlen : strlen (padded []) = some 0 :=
    strlen_eq (cstr_padded (fun h => by cases h) (Nat.zero_le _))
  unfold startText addText
  simp only [callocBuf_eq, Option.bind_eq_bind, hlen, Option.bind_some]

end Buffer

/-! ### Leaves -/

def idle (toks : List Token) : Lexer := ⟨.start, none, toks⟩

def collecting (st : ParseState) (txt : List Byte) (toks : List Token) : Lexer :=
  ⟨st, some (padded txt), toks⟩

section Leaves
variable {toks : List Token} {txt w rest : List Byte} {c d : Byte}

theorem lexRun_cons (l : Lexer) (c : Byte) (w : List Byte) :
    lexRun l (c :: w) = (lexStep l c).bind fun l => lexRun l w := rfl

theorem collect_run {st : ParseState} {enc : Byte → List Byte}
    (henc : ∀ c ∈ w, ∀ txt rest, lexRun (collecting st txt toks) (enc c ++ rest) =
      (addText (padded txt) c).bind fun blk => lexRun ⟨st, some blk, toks⟩ rest)
    (hw : 0 ∉ w) (htxt : 0 ∉ txt) (hlen : txt.length ≤ textMax) (rest : List Byte) :
    lexRun (collecting st txt toks) (w.flatMap enc ++ rest) =
      if (txt ++ w).length ≤ textMax then lexRun (collecting st (txt ++ w) toks) rest else none := by
  induction w generalizing txt with
  | nil => rw [List.append_nil, if_pos hlen, List.flatMap_nil, List.nil_append]
  | cons c w ih =>
    obtain ⟨hc, hw'⟩ := not_or.1 (mt List.mem_cons.2 hw)
    rw [List.flatMap_cons, List.append_assoc, henc c List.mem_cons_self,
      addText_padded htxt (Ne.symm hc) hlen]
    split_ifs with hfits hall hall
    · have htxt' : 0 ∉ txt ++ [c] := zero_notMem_snoc htxt (Ne.symm hc)
      have hrest := ih (fun b hb => henc b (List.mem_cons_of_mem _ hb)) hw' htxt' hfits
      rw [List.append_assoc, List.singleton_append, if_pos hall] at hrest
      exact hrest
    · have htxt' : 0 ∉ txt ++ [c] := zero_notMem_snoc htxt (Ne.symm hc)
      have hrest := ih (fun b hb => henc b (List.mem_cons_of_mem _ hb)) hw' htxt' hfits
      rw [List.append_assoc, List.singleton_append, if_neg hall] at hrest
      exact hrest
    · simp only [List.length_append, List.length_cons, List.length_nil] at hfits hall
      omega
    · rfl

/-- The characters that a symbol can go on with. -/
def SymbolChar (c : Byte) : Prop := c ≠ 0 ∧ c ≠ 32 ∧ c ≠ 41

instance : DecidablePred SymbolChar := fun c => inferInstanceAs (Decidable (c ≠ 0 ∧ c ≠ 32 ∧ c ≠ 41))

/-- The other characters that it cannot begin with: `(`, a quote, CR and LF. -/
def SymbolStart (c : Byte) : Prop := SymbolChar c ∧ c ≠ 40 ∧ c ≠ 34 ∧ c ≠ 13 ∧ c ≠ 10

instance : DecidablePred SymbolStart := fun c =>
  inferInstanceAs (Decidable (SymbolChar c ∧ c ≠ 40 ∧ c ≠ 34 ∧ c ≠ 13 ∧ c ≠ 10))

/-- The texts that the tokenizer takes whole for a symbol or an integer. -/
def IsSymbolText : List Byte → Prop
  | [] => False
  | c :: w => SymbolStart c ∧ ∀ b ∈ w, SymbolChar b

instance : DecidablePred IsSymbolText
  | [] => inferInstanceAs (Decidable False)
  | c :: w => inferInstanceAs (Decidable (SymbolStart c ∧ ∀ b ∈ w, SymbolChar b))

theorem zero_notMem_of_symbolChars (h : ∀ b ∈ w, SymbolChar b) : 0 ∉ w := fun hmem => (h 0 hmem).1 rfl

theorem addText_collecting (st : ParseState) :
    (collecting st txt toks).addText c =
      (addText (padded txt) c).map fun blk => ⟨st, some blk, toks⟩ := by
  unfold Lexer.addText collecting
  rw [Option.map_eq_bind]
  rfl

theorem lexStep_inSymbol (h32 : c ≠ 32) (h41 : c ≠ 41) :
    lexStep (collecting .inSymbol txt toks) c =
      (addText (padded txt) c).map fun blk => ⟨.inSymbol, some blk, toks⟩ := by
  rw [← addText_collecting]
  unfold lexStep
  simp only [collecting, if_neg h41, if_neg h32]

theorem lexStep_newSymbol (hskip : ¬ (c = 40 ∨ c = 41 ∨ (c = 32 ∨ c = 13 ∨ c = 10))) (h34 : c ≠ 34)
    (buf : Option (List Byte)) : lexStep ⟨.start, buf, toks⟩ c =
      (addText (padded []) c).map fun blk => ⟨.inSymbol, some blk, toks⟩ := by
  obtain ⟨h40, h41, hblank⟩ : c ≠ 40 ∧ c ≠ 41 ∧ ¬ (c = 32 ∨ c = 13 ∨ c = 10) := by
    simpa only [not_or] using hskip
  unfold lexStep
  simp only [if_neg h40, if_neg h41, if_neg hblank, if_neg h34, startText_eq, Option.map_eq_bind]
  rfl

theorem lexStep_start (hc : SymbolStart c) :
    lexStep (idle toks) c = (addText (padded []) c).map fun blk => ⟨.inSymbol, some blk, toks⟩ := by
  obtain ⟨⟨-, h32, h41⟩, h40, h34, h13, h10⟩ := hc
  apply lexStep_newSymbol _ h34
  simp only [not_or]
  exact ⟨h40, h41, h32, h13, h10⟩

theorem finish_collecting {st : ParseState} (type : TokenType) (htxt : 0 ∉ txt)
    (hlen : txt.length ≤ textMax) :
    (collecting st txt toks).finish type = some (idle (emitToken toks type txt)) := by
  unfold Lexer.finish collecting
  simp only [Option.bind_eq_bind, Option.bind_some, cstr_padded htxt hlen]
  rfl

theorem lexStep_endSymbol (htxt : 0 ∉ txt) (hlen : txt.length ≤ textMax) (hd : d = 32 ∨ d = 41) :
    lexStep (collecting .inSymbol txt toks) d = lexStep (idle (emitToken toks .symbol txt)) d := by
  have hfinish : (collecting .inSymbol txt toks).finish .symbol = _ :=
    finish_collecting .symbol htxt hlen
  unfold lexStep
  rcases hd with rfl | rfl
  · exact hfinish
  · exact congrArg (Option.map fun l : Lexer => l.emit .rparen [41]) hfinish

theorem lexRun_symbolText (hsym : IsSymbolText txt) (rest : List Byte) :
    lexRun (idle toks) (txt ++ rest) =
      if txt.length ≤ textMax then lexRun (collecting .inSymbol txt toks) rest else none := by
  cases txt with
  | nil => exact hsym.elim
  | cons c w =>
    obtain ⟨hc, hw⟩ := hsym
    have hone : ∀ b ∈ w, ∀ txt rest, lexRun (collecting .inSymbol txt toks) ([b] ++ rest) =
        (addText (padded txt) b).bind fun blk => lexRun ⟨.inSymbol, some blk, toks⟩ rest := by
      intro b hb txt rest
      rw [List.singleton_append, lexRun_cons, lexStep_inSymbol (hw b hb).2.1 (hw b hb).2.2,
        Option.bind_map]
      rfl
    have hcollect := collect_run hone (zero_notMem_of_symbolChars hw)
      (show 0 ∉ [c] by simpa using Ne.symm hc.1.1) one_le_textMax rest
    rw [List.flatMap_singleton', List.singleton_append] at hcollect
    rw [List.cons_append, lexRun_cons, lexStep_start hc,
      addText_padded List.not_mem_nil hc.1.1 (Nat.zero_le _), List.nil_append,
      if_pos (show [c].length ≤ textMax from one_le_textMax), Option.map_some,
      Option.bind_some]
    exact hcollect

theorem zero_notMem_of_isSymbolText (hsym : IsSymbolText txt) : 0 ∉ txt := by
  cases txt with
  | nil => exact List.not_mem_nil
  | cons c w =>
    rw [List.mem_cons, not_or]
    exact ⟨Ne.symm hsym.1.1.1, zero_notMem_of_symbolChars hsym.2⟩

theorem lex_symbolText (hsym : IsSymbolText txt) (hd : d = 32 ∨ d = 41) :
    lexRun (idle toks) (txt ++ d :: rest) =
      if txt.length ≤ textMax then lexRun (idle (emitToken toks .symbol txt)) (d :: rest)
      else none := by
  rw [lexRun_symbolText hsym]
  split_ifs with hlen
  · rw [lexRun_cons, lexStep_endSymbol (zero_notMem_of_isSymbolText hsym) hlen hd, ← lexRun_cons]
  · rfl

/-- A backslash before the two characters that would not stand for themselves. -/
def escape (c : Byte) : List Byte := if c = 34 ∨ c = 92 then [92, c] else [c]

def quoted (s : List Byte) : List Byte := [34] ++ s.flatMap escape ++ [34]

theorem lexStep_inString (h34 : c ≠ 34) (h92 : c ≠ 92) :
    lexStep (collecting .inString txt toks) c =
      (addText (padded txt) c).map fun blk => ⟨.inString, some blk, toks⟩ := by
  rw [← addText_collecting]
  unfold lexStep
  simp only [collecting, if_neg h34, if_neg h92]

theorem lexStep_escaped :
    lexStep (collecting .inStringEscape txt toks) c =
      (addText (padded txt) c).map fun blk => ⟨.inString, some blk, toks⟩ := by
  have hadd : (collecting .inStringEscape txt toks).addText c = _ := addText_collecting .inStringEscape
  unfold lexStep
  refine (congrArg (Option.map fun l : Lexer => { l with curState := .inString }) hadd).trans ?_
  rw [Option.map_map]
  rfl

theorem lexRun_escape :
    lexRun (collecting .inString txt toks) (escape c ++ rest) =
      (addText (padded txt) c).bind fun blk => lexRun ⟨.inString, some blk, toks⟩ rest := by
  unfold escape
  split_ifs with hspecial
  · rw [List.cons_append, lexRun_cons, show lexStep (collecting .inString txt toks) 92 =
      some (collecting .inStringEscape txt toks) from rfl, Option.bind_some, List.singleton_append,
      lexRun_cons, lexStep_escaped, Option.bind_map]
    rfl
  · obtain ⟨h34, h92⟩ := not_or.1 hspecial
    rw [List.singleton_append, lexRun_cons, lexStep_inString h34 h92, Option.bind_map]
    rfl

theorem lex_quoted (hzero : 0 ∉ txt) :
    lexRun (idle toks) (quoted txt ++ rest) =
      if txt.length ≤ textMax then lexRun (idle (emitToken toks .string txt)) rest else none := by
  have hescape : ∀ c ∈ txt, ∀ txt rest, lexRun (collecting .inString txt toks) (escape c ++ rest) =
      (addText (padded txt) c).bind fun blk => lexRun ⟨.inString, some blk, toks⟩ rest :=
    fun _ _ _ _ => lexRun_escape
  have hcollect := collect_run hescape hzero List.not_mem_nil (Nat.zero_le _) (34 :: rest)
  rw [List.nil_append] at hcollect
  rw [quoted, List.append_assoc, List.append_assoc, List.singleton_append, List.singleton_append,
    lexRun_cons, show lexStep (idle toks) 34 = some (collecting .inString [] toks) from rfl,
    Option.bind_some, hcollect]
  split_ifs with hlen
  · rw [lexRun_cons, show lexStep (collecting .inString txt toks) 34 =
      (collecting .inString txt toks).finish .string from rfl, finish_collecting _ hzero hlen,
      Option.bind_some]
  · rfl

/-! ### Numerals -/

theorem symbolStart_of_isDigit (h : IsDigit c) : SymbolStart c := by
  obtain ⟨hlo, hhi⟩ := h
  have hne : ∀ b : Byte, ¬ 48 ≤ b → c ≠ b := fun b hb heq => hb (heq ▸ hlo)
  exact ⟨⟨hne 0 (by decide), hne 32 (by decide), hne 41 (by decide)⟩, hne 40 (by decide),
    hne 34 (by decide), hne 13 (by decide), hne 10 (by decide)⟩

theorem isSymbolText_decimal (n : ℕ) : IsSymbolText (decimal n) := by
  have hdigits := fun d (hd : d ∈ decimal n) => symbolStart_of_isDigit (isDigit_of_mem_decimal hd)
  cases hdec : decimal n with
  | nil => exact absurd hdec (decimal_ne_nil n)
  | cons d w =>
    rw [hdec] at hdigits
    exact ⟨hdigits d List.mem_cons_self, fun b hb => (hdigits b (List.mem_cons_of_mem _ hb)).1⟩

theorem isSymbolText_signedDecimal (i : ℤ) : IsSymbolText (signedDecimal i) := by
  unfold signedDecimal
  split_ifs with hneg
  · refine ⟨by decide, fun b hb => ?_⟩
    exact (symbolStart_of_isDigit (isDigit_of_mem_decimal hb)).1
  · exact isSymbolText_decimal _

theorem isInt_decimal (n : ℕ) : isInt (decimal n) = true := by
  apply List.all_eq_true.2
  intro d hd
  exact decide_eq_true (isDigit_of_mem_decimal hd)

def intMax : ℤ := 2 ^ 31 - 1

theorem atoi_of_le {s : List Byte} (h : (digitsValue s : ℤ) ≤ intMax) : atoi s = digitsValue s := by
  have hmax : (digitsValue s : ℤ) ≤ 2 ^ 31 - 1 := h
  have hlong : digitsValue s ≤ longMax := by
    unfold longMax
    omega
  unfold atoi
  rw [min_eq_left hlong]
  apply Int.bmod_eq_of_le
  · exact le_trans (by decide) (Int.natCast_nonneg _)
  · exact lt_of_le_of_lt hmax (by decide)

theorem atoi_decimal {n : ℕ} (h : (n : ℤ) ≤ intMax) : atoi (decimal n) = n := by
  rw [atoi_of_le (by rwa [digitsValue_decimal]), digitsValue_decimal]

theorem atoi_mem_range (s : List Byte) : -(intMax + 1) ≤ atoi s ∧ atoi s ≤ intMax := by
  have hle := Int.le_bmod (x := ((min (digitsValue s) longMax : ℕ) : ℤ)) (m := 2 ^ 32) (by decide)
  have hlt := Int.bmod_lt (x := ((min (digitsValue s) longMax : ℕ) : ℤ)) (m := 2 ^ 32) (by decide)
  have hmax : intMax = 2 ^ 31 - 1 := rfl
  unfold atoi
  constructor <;> omega

end Leaves

/-- The atom a symbol's text gives: a row of digits is an integer. -/
def symbolAtom (txt : List Byte) : Atom := if isInt txt then .int (atoi txt) else .symbol txt

theorem emitToken_symbol (toks : List Token) (txt : List Byte) :
    emitToken toks .symbol txt = toks ++ [.atom (symbolAtom txt)] := by
  unfold emitToken symbolAtom
  split_ifs <;> rfl

theorem symbolAtom_decimal {n : ℕ} (h : (n : ℤ) ≤ intMax) : symbolAtom (decimal n) = .int n := by
  unfold symbolAtom
  rw [if_pos (isInt_decimal n), atoi_decimal h]

theorem symbolAtom_negative {i : ℤ} (h : i < 0) : symbolAtom (signedDecimal i) =
    .symbol (signedDecimal i) := by
  unfold symbolAtom
  apply if_neg
  rw [signedDecimal, if_pos h]
  exact Bool.false_ne_true

theorem symbolAtom_nonneg {i : ℤ} (h : 0 ≤ i) :
    symbolAtom (signedDecimal i) = .int (atoi (signedDecimal i)) := by
  unfold symbolAtom
  apply if_pos
  rw [signedDecimal, if_neg (not_lt.2 h)]
  exact isInt_decimal _

/-- An integer is read as itself exactly where `%d` needs no sign and `atoi` no more than an `int`. -/
theorem symbolAtom_signedDecimal_iff (i : ℤ) :
    symbolAtom (signedDecimal i) = .int i ↔ 0 ≤ i ∧ i ≤ intMax := by
  rcases lt_or_ge i 0 with hneg | hpos
  · apply iff_of_false
    · rw [symbolAtom_negative hneg]
      exact fun h => by cases h
    · exact fun h => not_lt.2 h.1 hneg
  · obtain ⟨n, rfl⟩ := Int.eq_ofNat_of_zero_le hpos
    constructor
    · intro h
      rw [symbolAtom_nonneg hpos] at h
      rw [← Atom.int.inj h]
      exact ⟨by rw [Atom.int.inj h]; exact hpos, (atoi_mem_range _).2⟩
    · rintro ⟨-, hle⟩
      rw [signedDecimal, if_neg (not_lt.2 hpos)]
      exact symbolAtom_decimal hle

theorem length_signedDecimal_le {i : ℤ} (hlo : -(intMax + 1) ≤ i) (hhi : i ≤ intMax) :
    (signedDecimal i).length ≤ textMax := by
  have hmax : intMax = 2 ^ 31 - 1 := rfl
  have hdec : (decimal i.natAbs).length ≤ 9 + 1 := length_decimal_le (by norm_num; omega)
  have htext : (11 : ℕ) ≤ textMax := by decide
  unfold signedDecimal
  split_ifs with hneg
  · exact le_trans (Nat.succ_le_succ hdec) htext
  · exact le_trans hdec (Nat.le_of_succ_le htext)

/-! ### Lists -/

section Items
variable {α : Type*} {leaf : α → List Byte} {tok : α → Atom} {fits : α → Prop} [DecidablePred fits]

/-- What the tokenizer does with one leaf and the character behind it. -/
def LexesTo (leaf : List Byte) (a : Atom) (fits : Prop) [Decidable fits] : Prop :=
  ∀ toks d rest, d = 32 ∨ d = 41 → lexRun (idle toks) (leaf ++ d :: rest) =
    if fits then lexRun (idle (toks ++ [.atom a])) (d :: rest) else none

theorem lexRun_left (toks : List Token) (rest : List Byte) :
    lexRun (idle toks) (40 :: rest) = lexRun (idle (toks ++ [.left])) rest := rfl

theorem lexRun_right (toks : List Token) (rest : List Byte) :
    lexRun (idle toks) (41 :: rest) = lexRun (idle (toks ++ [.right])) rest := rfl

theorem lexRun_blank (toks : List Token) (rest : List Byte) :
    lexRun (idle toks) (32 :: rest) = lexRun (idle toks) rest := rfl

theorem lexRun_separator (f : Forest α) (leaf : α → List Byte) (rest : List Byte) :
    ∃ d w, (d = 32 ∨ d = 41) ∧ separator f ++ renderItems leaf f ++ 41 :: rest = d :: w ∧
      ∀ toks, lexRun (idle toks) (d :: w) =
        lexRun (idle toks) (renderItems leaf f ++ 41 :: rest) := by
  cases f with
  | nil => exact ⟨41, rest, Or.inr rfl, rfl, fun _ => rfl⟩
  | atom a tail => exact ⟨32, _, Or.inl rfl, rfl, fun toks => lexRun_blank toks _⟩
  | group items tail => exact ⟨32, _, Or.inl rfl, rfl, fun toks => lexRun_blank toks _⟩

theorem lex_items {f : Forest α} (hleaf : ∀ a ∈ atoms f, LexesTo (leaf a) (tok a) (fits a))
    (toks : List Token) (rest : List Byte) :
    lexRun (idle toks) (renderItems leaf f ++ 41 :: rest) =
      if ∀ a ∈ atoms f, fits a then
        lexRun (idle (toks ++ flatten (f.map tok))) (41 :: rest)
      else none := by
  induction f generalizing toks rest with
  | nil =>
    rw [if_pos (fun a ha => by cases ha), Forest.map, flatten, List.append_nil]
    rfl
  | atom a tail ih =>
    obtain ⟨d, w, hd, hw, hskip⟩ := lexRun_separator tail leaf rest
    rw [renderItems, List.append_assoc, List.append_assoc, ← List.append_assoc (separator tail), hw,
      hleaf a List.mem_cons_self toks d w hd, hskip,
      ih (fun b hb => hleaf b (List.mem_cons_of_mem _ hb))]
    simp only [atoms, List.mem_cons, forall_eq_or_imp, Forest.map, flatten, List.append_assoc,
      List.singleton_append]
    split_ifs <;> first | rfl | tauto
  | group items tail ihi iht =>
    obtain ⟨d, w, hd, hw, hskip⟩ := lexRun_separator tail leaf rest
    have hitems := ihi (fun b hb => hleaf b (List.mem_append_left _ hb)) (toks ++ [.left]) (d :: w)
    have htail := iht (fun b hb => hleaf b (List.mem_append_right _ hb))
      (toks ++ [.left] ++ flatten (items.map tok) ++ [.right]) rest
    rw [renderItems]
    simp only [List.append_assoc, List.cons_append, List.nil_append]
    rw [← List.append_assoc (separator tail), hw, lexRun_left, hitems, lexRun_right, hskip, htail]
    simp only [atoms, List.mem_append, or_imp, forall_and, Forest.map, flatten, List.append_assoc,
      List.cons_append]
    split_ifs <;> first | rfl | tauto

end Items

end MutantC.SexpParse
