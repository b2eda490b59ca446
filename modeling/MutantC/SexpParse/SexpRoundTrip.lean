import MutantC.SexpParse.SexpTokenizer

/-! Printing a value and reading it back: exactly the values whose strings need no escape, whose symbols
begin as symbols do and whose integers are not negative come back. -/

namespace MutantC.SexpParse
open CBuffer Decimal Brackets Iteration

def Emitted (t : List Token) : Prop := ∃ cs, (lexRun lexStart cs).map Lexer.parsedTokens = some t

def ValAll (P : Atom → Prop) : ParsedVal → Prop
  | .null => True
  | .cons car cdr => ValAll P car ∧ ValAll P cdr
  | .symbol s => P (.symbol s)
  | .str s => P (.string s)
  | .int i => P (.int i)

def OneLineAtom : Atom → Prop
  | .symbol s => ∀ b ∈ s, b ≠ 10 ∧ b ≠ 13
  | .string s => ∀ b ∈ s, b ≠ 10 ∧ b ≠ 13
  | .int _ => True

/-- What `dump_val` writes is what the tokenizer takes for the same atom. -/
def PlainAtom : Atom → Prop
  | .symbol s => s.head? ≠ some 40 ∧ s.head? ≠ some 34
  | .string s => 34 ∉ s ∧ 92 ∉ s
  | .int i => 0 ≤ i

/-- The value printed, and a blank, is read as the value again. -/
def ReadsBack (v : ParsedVal) : Prop :=
  ∃ text l t, dumpVal v = some text ∧ lexRun lexStart (text ++ [32]) = some l ∧
    readForm l.parsedTokens = some (v, t)

/-! ### What the tokenizer emits -/

def LexicalAtom : Atom → Prop
  | .symbol s => s ≠ [] ∧ (∀ b ∈ s, SymbolChar b) ∧ isInt s = false ∧ s.length ≤ textMax
  | .string s => 0 ∉ s ∧ s.length ≤ textMax
  | .int i => -(intMax + 1) ≤ i ∧ i ≤ intMax

def LexicalTokens (t : List Token) : Prop := ∀ a, Mark.atom a ∈ t → LexicalAtom a

def Collects (P : Byte → Prop) (buf : Option (List Byte)) : Prop :=
  ∃ txt, buf = some (padded txt) ∧ txt.length ≤ textMax ∧ ∀ b ∈ txt, b ≠ 0 ∧ P b

structure LexInv (l : Lexer) : Prop where
  tokens : LexicalTokens l.parsedTokens
  inSymbol : l.curState = .inSymbol → Collects SymbolChar l.sValBuf
  inString : l.curState = .inString ∨ l.curState = .inStringEscape →
    Collects (fun _ => True) l.sValBuf

section Invariant
variable {l l' : Lexer} {c : Byte} {toks : List Token}

theorem LexicalTokens.append (h : LexicalTokens toks) {tok : Token}
    (htok : ∀ a, Mark.atom a = tok → LexicalAtom a) : LexicalTokens (toks ++ [tok]) := by
  intro a ha
  rcases List.mem_append.1 ha with ha | ha
  · exact h a ha
  · exact htok a (List.mem_singleton.1 ha)

theorem LexicalTokens.bracket (h : LexicalTokens toks) {tok : Token}
    (htok : tok = .left ∨ tok = .right) : LexicalTokens (toks ++ [tok]) := by
  apply h.append
  rintro a rfl
  rcases htok with h | h <;> cases h

theorem LexicalTokens.emit_symbol (h : LexicalTokens toks) {txt : List Byte}
    (htxt : ∀ b ∈ txt, SymbolChar b) (hlen : txt.length ≤ textMax) :
    LexicalTokens (emitToken toks .symbol txt) := by
  rw [emitToken_symbol]
  apply h.append
  intro a ha
  obtain rfl := Mark.atom.inj ha
  unfold symbolAtom
  split_ifs with hint
  · exact atoi_mem_range txt
  · refine ⟨?_, htxt, Bool.eq_false_iff.2 hint, hlen⟩
    rintro rfl
    exact hint rfl

theorem LexicalTokens.emit_string (h : LexicalTokens toks) {txt : List Byte} (htxt : 0 ∉ txt)
    (hlen : txt.length ≤ textMax) : LexicalTokens (emitToken toks .string txt) := by
  apply h.append
  intro a ha
  obtain rfl := Mark.atom.inj ha
  exact ⟨htxt, hlen⟩

theorem Collects.zero_notMem {P : Byte → Prop} {txt : List Byte} (h : ∀ b ∈ txt, b ≠ 0 ∧ P b) :
    0 ∉ txt := fun hmem => (h 0 hmem).1 rfl

theorem Collects.addText {P : Byte → Prop} {txt blk : List Byte} (hlen : txt.length ≤ textMax)
    (htxt : ∀ b ∈ txt, b ≠ 0 ∧ P b) (hc : c ≠ 0 → P c) (h : addText (padded txt) c = some blk) :
    Collects P (some blk) := by
  rcases eq_or_ne c 0 with rfl | hne
  · rw [addText_zero (zero_notMem htxt) hlen] at h
    exact ⟨txt, h.symm, hlen, htxt⟩
  · rw [addText_padded (zero_notMem htxt) hne hlen] at h
    split_ifs at h with hfits
    refine ⟨txt ++ [c], h.symm, hfits, fun b hb => ?_⟩
    rcases List.mem_append.1 hb with hb | hb
    · exact htxt b hb
    · exact List.mem_singleton.1 hb ▸ ⟨hne, hc hne⟩

theorem Collects.lexer_addText {P : Byte → Prop} (h : Collects P l.sValBuf) (hc : c ≠ 0 → P c)
    (hstep : l.addText c = some l') :
    ∃ blk, l' = { l with sValBuf := some blk } ∧ Collects P (some blk) := by
  obtain ⟨txt, hbuf, hlen, htxt⟩ := h
  unfold Lexer.addText at hstep
  simp only [hbuf, Option.bind_eq_bind, Option.bind_some] at hstep
  obtain ⟨blk, hblk, hl'⟩ := Option.bind_eq_some_iff.1 hstep
  exact ⟨blk, (Option.some.inj hl').symm, Collects.addText hlen htxt hc hblk⟩

theorem Collects.finish {P : Byte → Prop} (h : Collects P l.sValBuf) {type : TokenType}
    (hstep : l.finish type = some l') :
    ∃ txt, txt.length ≤ textMax ∧ (∀ b ∈ txt, b ≠ 0 ∧ P b) ∧
      l' = idle (emitToken l.parsedTokens type txt) := by
  obtain ⟨txt, hbuf, hlen, htxt⟩ := h
  unfold Lexer.finish at hstep
  simp only [hbuf, Option.bind_eq_bind, Option.bind_some, cstr_padded (zero_notMem htxt) hlen] at hstep
  exact ⟨txt, hlen, htxt, (Option.some.inj hstep).symm⟩

theorem LexInv.of_idle (h : LexicalTokens toks) : LexInv (idle toks) :=
  ⟨h, nofun, fun hst => hst.elim nofun nofun⟩

theorem LexInv.of_inString {st : ParseState} {buf : Option (List Byte)} (h : LexicalTokens toks)
    (hst : st = .inString ∨ st = .inStringEscape) (hbuf : Collects (fun _ => True) buf) :
    LexInv ⟨st, buf, toks⟩ :=
  ⟨h, fun heq => by subst heq; exact hst.elim nofun nofun, fun _ => hbuf⟩

theorem LexInv.of_inSymbol {buf : Option (List Byte)} (h : LexicalTokens toks)
    (hbuf : Collects SymbolChar buf) : LexInv ⟨.inSymbol, buf, toks⟩ :=
  ⟨h, fun _ => hbuf, fun hst => hst.elim nofun nofun⟩

theorem lexInv_start_step {buf : Option (List Byte)} (htoks : LexicalTokens toks)
    (h : lexStep ⟨.start, buf, toks⟩ c = some l') : LexInv l' := by
  have hstart : ∀ toks', LexicalTokens toks' → LexInv ⟨.start, buf, toks'⟩ := fun toks' htoks' =>
    ⟨htoks', nofun, fun hst => hst.elim nofun nofun⟩
  unfold lexStep at h
  simp only at h
  split_ifs at h with h40 h41 hblank h34
  · obtain rfl := Option.some.inj h
    exact hstart _ (htoks.bracket (Or.inl rfl))
  · obtain rfl := Option.some.inj h
    exact hstart _ (htoks.bracket (Or.inr rfl))
  · obtain rfl := Option.some.inj h
    exact hstart _ htoks
  · obtain rfl := Option.some.inj h
    exact LexInv.of_inString htoks (Or.inl rfl)
      ⟨[], congrArg some callocBuf_eq, Nat.zero_le _, fun b hb => by cases hb⟩
  · obtain ⟨blk, hblk, hl'⟩ := Option.bind_eq_some_iff.1 h
    obtain rfl := Option.some.inj hl'
    rw [startText_eq] at hblk
    apply LexInv.of_inSymbol htoks
    exact Collects.addText (Nat.zero_le _) (fun b hb => by cases hb)
      (fun hne => ⟨hne, (not_or.1 hblank).1, h41⟩) hblk

theorem LexInv.step (hl : LexInv l) (h : lexStep l c = some l') : LexInv l' := by
  obtain ⟨st, buf, toks⟩ := l
  have htoks : LexicalTokens toks := hl.tokens
  cases st with
  | start => exact lexInv_start_step htoks h
  | inStringEscape =>
    obtain ⟨l₁, hadd, rfl⟩ := Option.map_eq_some_iff.1 h
    obtain ⟨blk, rfl, hblk⟩ := (hl.inString (Or.inr rfl)).lexer_addText (fun _ => trivial) hadd
    exact LexInv.of_inString htoks (Or.inl rfl) hblk
  | inString =>
    have hbuf := hl.inString (Or.inl rfl)
    unfold lexStep at h
    simp only at h
    split_ifs at h with h92 h34
    · obtain rfl := Option.some.inj h
      exact LexInv.of_inString htoks (Or.inr rfl) hbuf
    · obtain ⟨txt, hlen, htxt, rfl⟩ := hbuf.finish h
      exact LexInv.of_idle (htoks.emit_string (Collects.zero_notMem htxt) hlen)
    · obtain ⟨blk, rfl, hblk⟩ := hbuf.lexer_addText (fun _ => trivial) h
      exact LexInv.of_inString htoks (Or.inl rfl) hblk
  | inSymbol =>
    have hbuf := hl.inSymbol rfl
    unfold lexStep at h
    simp only at h
    split_ifs at h with h41 h32
    · obtain ⟨l₁, hfinish, rfl⟩ := Option.map_eq_some_iff.1 h
      obtain ⟨txt, hlen, htxt, rfl⟩ := hbuf.finish hfinish
      have hemit := htoks.emit_symbol (fun b hb => (htxt b hb).2) hlen
      exact LexInv.of_idle (hemit.bracket (Or.inr rfl))
    · obtain ⟨txt, hlen, htxt, rfl⟩ := hbuf.finish h
      exact LexInv.of_idle (htoks.emit_symbol (fun b hb => (htxt b hb).2) hlen)
    · obtain ⟨blk, rfl, hblk⟩ := hbuf.lexer_addText (fun hne => ⟨hne, h32, h41⟩) h
      exact LexInv.of_inSymbol htoks hblk

theorem LexInv.run {w : List Byte} (hl : LexInv l) (h : lexRun l w = some l') : LexInv l' := by
  induction w generalizing l with
  | nil => exact Option.some.inj h ▸ hl
  | cons c w ih =>
    rw [lexRun_cons] at h
    obtain ⟨l₁, hstep, hrest⟩ := Option.bind_eq_some_iff.1 h
    exact ih (hl.step hstep) hrest

theorem Emitted.lexical {t : List Token} (h : Emitted t) : LexicalTokens t := by
  obtain ⟨cs, hcs⟩ := h
  obtain ⟨l, hrun, rfl⟩ := Option.map_eq_some_iff.1 hcs
  have hstart : LexInv lexStart := LexInv.of_idle fun a ha => by cases ha
  exact (hstart.run hrun).tokens

end Invariant

/-! ### What comes out of a printed atom -/

/-- The content up to the first quote without a backslash before it, and what is behind that quote. -/
def scanString : List Byte → Option (List Byte × List Byte)
  | [] => none
  | c :: w =>
    if c = 34 then some ([], w)
    else if c = 92 then
      match w with
      | [] => none
      | x :: w => (scanString w).map fun p => (x :: p.1, p.2)
    else (scanString w).map fun p => (c :: p.1, p.2)

theorem scanString_quote (w : List Byte) : scanString (34 :: w) = some ([], w) := by
  rw [scanString.eq_def]
  exact if_pos rfl

theorem scanString_backslash (x : Byte) (w : List Byte) :
    scanString (92 :: x :: w) = (scanString w).map fun p => (x :: p.1, p.2) := rfl

theorem scanString_char {c : Byte} (h34 : c ≠ 34) (h92 : c ≠ 92) (w : List Byte) :
    scanString (c :: w) = (scanString w).map fun p => (c :: p.1, p.2) := by
  rw [scanString.eq_def]
  exact (if_neg h34).trans (if_neg h92)

/-- A text that was printed without escapes and comes back, perhaps with backslashes before it, has no
quote and no backslash in it, and there are none before it. -/
theorem plain_of_scanString {y z w : List Byte} {k : ℕ}
    (h : scanString (y ++ 34 :: z) = some (List.replicate k 92 ++ y, w)) :
    k = 0 ∧ 34 ∉ y ∧ 92 ∉ y := by
  induction hn : y.length using Nat.strong_induction_on generalizing y w k with
  | h n ih =>
    subst hn
    cases y with
    | nil =>
      rw [List.nil_append, scanString_quote, List.append_nil] at h
      have hlen := congrArg List.length (Prod.mk.inj (Option.some.inj h)).1
      rw [List.length_replicate] at hlen
      exact ⟨hlen.symm, List.not_mem_nil, List.not_mem_nil⟩
    | cons c y =>
      rcases eq_or_ne c 34 with rfl | h34
      · -- the content ends at once
        rw [List.cons_append, scanString_quote] at h
        have hlen := congrArg List.length (Prod.mk.inj (Option.some.inj h)).1
        simp at hlen
      rcases eq_or_ne c 92 with rfl | h92
      · cases y with
        | nil =>
          -- the quote is taken as content, and it stands where a backslash should
          rw [List.cons_append, List.nil_append, scanString_backslash] at h
          obtain ⟨p, -, hp⟩ := Option.map_eq_some_iff.1 h
          have hhead := congrArg List.head? (Prod.mk.inj hp).1
          cases k <;> simp [List.replicate_succ] at hhead
        | cons x y =>
          rw [List.cons_append, List.cons_append, scanString_backslash] at h
          obtain ⟨⟨q, w'⟩, hscan, hp⟩ := Option.map_eq_some_iff.1 h
          obtain ⟨htext, -⟩ := Prod.mk.inj hp
          have hshift : x :: q = 92 :: (List.replicate k 92 ++ x :: y) := by
            rw [htext, ← List.cons_append, ← List.replicate_succ, List.replicate_succ',
              List.append_assoc]
            rfl
          obtain ⟨rfl, rfl⟩ := List.cons.inj hshift
          have hmore : List.replicate k 92 ++ 92 :: y = List.replicate (k + 1) 92 ++ y := by
            rw [List.replicate_succ', List.append_assoc, List.singleton_append]
          rw [hmore] at hscan
          have hlt : y.length < (92 :: 92 :: y : List Byte).length := Nat.lt_succ_of_lt (Nat.lt_succ_self _)
          exact absurd (ih _ hlt hscan rfl).1 (Nat.succ_ne_zero k)
      · rw [List.cons_append, scanString_char h34 h92] at h
        obtain ⟨⟨q, w'⟩, hscan, hp⟩ := Option.map_eq_some_iff.1 h
        obtain ⟨htext, -⟩ := Prod.mk.inj hp
        cases k with
        | zero =>
          obtain ⟨-, rfl⟩ := List.cons.inj htext
          obtain ⟨-, hq, hb⟩ := ih _ (Nat.lt_succ_self _) (k := 0) hscan rfl
          refine ⟨rfl, ?_, ?_⟩
          · rw [List.mem_cons, not_or]
            exact ⟨Ne.symm h34, hq⟩
          · rw [List.mem_cons, not_or]
            exact ⟨Ne.symm h92, hb⟩
        | succ k => exact absurd (List.cons.inj htext).1 h92

section Reread
variable {l l' : Lexer} {c d : Byte} {toks : List Token} {w rest : List Byte}

theorem addText_tokens (h : l.addText c = some l') : l'.parsedTokens = l.parsedTokens := by
  unfold Lexer.addText at h
  simp only [Option.bind_eq_bind] at h
  obtain ⟨blk, -, h⟩ := Option.bind_eq_some_iff.1 h
  obtain ⟨blk', -, h⟩ := Option.bind_eq_some_iff.1 h
  exact Option.some.inj h ▸ rfl

theorem finish_extends {type : TokenType} (h : l.finish type = some l') :
    l.parsedTokens <+: l'.parsedTokens := by
  unfold Lexer.finish at h
  simp only [Option.bind_eq_bind] at h
  obtain ⟨blk, -, h⟩ := Option.bind_eq_some_iff.1 h
  obtain ⟨val, -, h⟩ := Option.bind_eq_some_iff.1 h
  obtain rfl := Option.some.inj h
  exact List.prefix_append _ _

theorem lexStep_extends (h : lexStep l c = some l') : l.parsedTokens <+: l'.parsedTokens := by
  obtain ⟨st, buf, toks⟩ := l
  cases st with
  | start =>
    unfold lexStep at h
    simp only at h
    split_ifs at h
    · exact Option.some.inj h ▸ List.prefix_append _ _
    · exact Option.some.inj h ▸ List.prefix_append _ _
    · exact Option.some.inj h ▸ List.prefix_rfl
    · exact Option.some.inj h ▸ List.prefix_rfl
    · obtain ⟨blk, -, hl'⟩ := Option.bind_eq_some_iff.1 h
      exact Option.some.inj hl' ▸ List.prefix_rfl
  | inStringEscape =>
    obtain ⟨l₁, hadd, rfl⟩ := Option.map_eq_some_iff.1 h
    exact (addText_tokens hadd).symm ▸ List.prefix_rfl
  | inString =>
    unfold lexStep at h
    simp only at h
    split_ifs at h
    · exact Option.some.inj h ▸ List.prefix_rfl
    · exact finish_extends h
    · exact (addText_tokens h).symm ▸ List.prefix_rfl
  | inSymbol =>
    unfold lexStep at h
    simp only at h
    split_ifs at h
    · obtain ⟨l₁, hfinish, rfl⟩ := Option.map_eq_some_iff.1 h
      exact (finish_extends hfinish).trans (List.prefix_append _ _)
    · exact finish_extends h
    · exact (addText_tokens h).symm ▸ List.prefix_rfl

theorem lexRun_extends (h : lexRun l w = some l') : l.parsedTokens <+: l'.parsedTokens := by
  induction w generalizing l with
  | nil => exact Option.some.inj h ▸ List.prefix_rfl
  | cons c w ih =>
    rw [lexRun_cons] at h
    obtain ⟨l₁, hstep, hrest⟩ := Option.bind_eq_some_iff.1 h
    exact (lexStep_extends hstep).trans (ih hrest)

theorem inString_run {n : ℕ} (hn : w.length ≤ n) {txt : List Byte} (hw : 0 ∉ w) (htxt : 0 ∉ txt)
    (hlen : txt.length ≤ textMax) (h : lexRun (collecting .inString txt toks) w = some l) :
    l.parsedTokens = toks ∨ ∃ x w', scanString w = some (x, w') ∧
      lexRun (idle (toks ++ [.atom (.string (txt ++ x))])) w' = some l := by
  induction n generalizing w txt with
  | zero =>
    obtain rfl := List.length_eq_zero_iff.1 (Nat.le_zero.1 hn)
    exact Or.inl (Option.some.inj h ▸ rfl)
  | succ n ih =>
    -- one character is collected from the front of `v`, and the run goes on with `w`
    have hcollected : ∀ {x : Byte} {v w : List Byte}, x ≠ 0 → 0 ∉ w → w.length ≤ n →
        (∀ p, scanString w = some p → scanString v = some (x :: p.1, p.2)) →
        ((addText (padded txt) x).bind fun blk => lexRun ⟨.inString, some blk, toks⟩ w) = some l →
        l.parsedTokens = toks ∨ ∃ y w', scanString v = some (y, w') ∧
          lexRun (idle (toks ++ [.atom (.string (txt ++ y))])) w' = some l := by
      intro x v w hx hw hle hscan hrun
      rw [addText_padded htxt hx hlen] at hrun
      split_ifs at hrun with hfits
      · have htxt' : 0 ∉ txt ++ [x] := zero_notMem_snoc htxt hx
        rcases ih hle hw htxt' hfits hrun with hnone | ⟨y, w', hy, hrest⟩
        · exact Or.inl hnone
        · rw [List.append_assoc] at hrest
          exact Or.inr ⟨x :: y, w', hscan _ hy, hrest⟩
      · cases hrun
    cases w with
    | nil => exact Or.inl (Option.some.inj h ▸ rfl)
    | cons c w =>
      obtain ⟨hc, hw'⟩ := not_or.1 (mt List.mem_cons.2 hw)
      have hle : w.length ≤ n := Nat.le_of_succ_le_succ hn
      rcases eq_or_ne c 34 with rfl | h34
      · right
        rw [lexRun_cons, show lexStep (collecting .inString txt toks) 34 =
          (collecting .inString txt toks).finish .string from rfl, finish_collecting _ htxt hlen,
          Option.bind_some] at h
        exact ⟨[], w, scanString_quote w, by rwa [List.append_nil]⟩
      rcases eq_or_ne c 92 with rfl | h92
      · rw [lexRun_cons, show lexStep (collecting .inString txt toks) 92 =
          some (collecting .inStringEscape txt toks) from rfl, Option.bind_some] at h
        cases w with
        | nil => exact Or.inl (Option.some.inj h ▸ rfl)
        | cons x w =>
          obtain ⟨hx, hw''⟩ := not_or.1 (mt List.mem_cons.2 hw')
          rw [lexRun_cons, lexStep_escaped, Option.bind_map] at h
          refine hcollected (Ne.symm hx) hw'' (Nat.le_of_succ_le hle) ?_ h
          intro p hp
          rw [scanString_backslash, hp, Option.map_some]
      · rw [lexRun_cons, lexStep_inString h34 h92, Option.bind_map] at h
        refine hcollected (Ne.symm hc) hw' hle ?_ h
        intro p hp
        rw [scanString_char h34 h92, hp, Option.map_some]

theorem snoc_prefix_inj {x y : Token} {t : List Token} (hx : toks ++ [x] <+: t)
    (hy : toks ++ [y] <+: t) : x = y := by
  have heq := List.prefix_of_prefix_length_le hx hy (by simp)
  have hsame := heq.eq_of_length (by simp)
  exact List.singleton_injective (List.append_cancel_left hsame)

theorem not_snoc_self {x : Token} : ¬ toks ++ [x] <+: toks := by
  intro h
  have hle := h.length_le
  rw [List.length_append, List.length_singleton] at hle
  exact Nat.not_succ_le_self _ hle

theorem zero_notMem_atomText {a : Atom} (ha : LexicalAtom a) : 0 ∉ atomText a := by
  cases a with
  | symbol s => exact zero_notMem_of_symbolChars ha.2.1
  | string s =>
    have hs := ha.1
    simp only [atomText, List.mem_append, List.mem_singleton, not_or]
    exact ⟨⟨by decide, hs⟩, by decide⟩
  | int i =>
    have hdec : ∀ n, 0 ∉ decimal n := fun n hmem => by
      have hstart := symbolStart_of_isDigit (isDigit_of_mem_decimal hmem)
      exact hstart.1.1 rfl
    change 0 ∉ signedDecimal i
    unfold signedDecimal
    split_ifs
    · rw [List.mem_cons, not_or]
      exact ⟨by decide, hdec _⟩
    · exact hdec _

theorem plain_of_reread {a : Atom} (ha : LexicalAtom a) (hline : OneLineAtom a)
    (hrest : 0 ∉ d :: rest) (hd : d = 32 ∨ d = 41)
    (h : lexRun (idle toks) (atomText a ++ d :: rest) = some l)
    (htoks : toks ++ [.atom a] <+: l.parsedTokens) : PlainAtom a := by
  have hzero := zero_notMem_atomText ha
  cases a with
  | symbol s =>
    constructor
    · intro hhead
      obtain ⟨w, rfl⟩ := List.head?_eq_some_iff.1 hhead
      change lexRun (idle toks) (40 :: (w ++ d :: rest)) = some l at h
      rw [lexRun_left] at h
      -- the reader would see a parenthesis first
      cases snoc_prefix_inj htoks (lexRun_extends h)
    · intro hhead
      obtain ⟨w, rfl⟩ := List.head?_eq_some_iff.1 hhead
      -- it would see a string, or none if the quote is never closed
      have hw : 0 ∉ w ++ d :: rest := by
        rw [List.mem_append, not_or]
        exact ⟨fun hmem => hzero (List.mem_cons_of_mem _ hmem), hrest⟩
      have hrun : lexRun (collecting .inString [] toks) (w ++ d :: rest) = some l := h
      rcases inString_run le_rfl hw (fun h => by cases h) (Nat.zero_le _) hrun with
        hnone | ⟨x, w', -, hx⟩
      · rw [hnone] at htoks
        exact not_snoc_self htoks
      · cases Mark.atom.inj (snoc_prefix_inj htoks (lexRun_extends hx))
  | string s =>
    have hs : 0 ∉ s := ha.1
    have hw : 0 ∉ s ++ 34 :: d :: rest := by
      rw [List.mem_append, List.mem_cons, not_or, not_or]
      exact ⟨hs, by decide, hrest⟩
    have hrun : lexRun (collecting .inString [] toks) (s ++ 34 :: d :: rest) = some l := by
      rw [← h]
      simp only [atomText, List.append_assoc, List.singleton_append]
      rfl
    rcases inString_run le_rfl hw (fun h => by cases h) (Nat.zero_le _) hrun with
      hnone | ⟨x, w', hscan, hx⟩
    · rw [hnone] at htoks
      exact absurd htoks not_snoc_self
    · have hsame := Mark.atom.inj (snoc_prefix_inj htoks (lexRun_extends hx))
      rw [List.nil_append] at hsame
      obtain rfl := Atom.string.inj hsame
      exact (plain_of_scanString (k := 0) hscan).2
  | int i =>
    -- the sign makes a symbol of a negative number
    by_contra hneg
    change lexRun (idle toks) (signedDecimal i ++ d :: rest) = some l at h
    rw [lex_symbolText (isSymbolText_signedDecimal i) hd, emitToken_symbol,
      symbolAtom_negative (not_le.1 hneg)] at h
    split_ifs at h
    cases Mark.atom.inj (snoc_prefix_inj htoks (lexRun_extends h))

theorem flatMap_escape {s : List Byte} (h34 : 34 ∉ s) (h92 : 92 ∉ s) : s.flatMap escape = s := by
  induction s with
  | nil => rfl
  | cons c s ih =>
    obtain ⟨hc34, hs34⟩ := not_or.1 (mt List.mem_cons.2 h34)
    obtain ⟨hc92, hs92⟩ := not_or.1 (mt List.mem_cons.2 h92)
    rw [List.flatMap_cons, escape, if_neg (not_or.2 ⟨Ne.symm hc34, Ne.symm hc92⟩), ih hs34 hs92]
    rfl

theorem lexesTo_of_plain {a : Atom} (ha : LexicalAtom a) (hline : OneLineAtom a)
    (hplain : PlainAtom a) : LexesTo (atomText a) a True := by
  intro toks d rest hd
  rw [if_pos trivial]
  cases a with
  | symbol s =>
    obtain ⟨hne, hchars, hint, hlen⟩ := ha
    have hsym : IsSymbolText s := by
      cases s with
      | nil => exact absurd rfl hne
      | cons c w =>
        have hnl := hline c List.mem_cons_self
        have h40 : c ≠ 40 := fun h => hplain.1 (congrArg some h)
        have h34 : c ≠ 34 := fun h => hplain.2 (congrArg some h)
        exact ⟨⟨hchars c List.mem_cons_self, h40, h34, hnl.2, hnl.1⟩,
          fun b hb => hchars b (List.mem_cons_of_mem _ hb)⟩
    have hsame : symbolAtom s = .symbol s := if_neg (by rw [hint]; exact Bool.false_ne_true)
    refine (lex_symbolText hsym hd).trans ?_
    rw [if_pos hlen, emitToken_symbol, hsame]
  | string s =>
    have hquoted : atomText (.string s) = quoted s := by
      rw [quoted, flatMap_escape hplain.1 hplain.2]
      rfl
    rw [hquoted, lex_quoted ha.1, if_pos ha.2]
    rfl
  | int i =>
    refine (lex_symbolText (isSymbolText_signedDecimal i) hd).trans ?_
    rw [if_pos (length_signedDecimal_le ha.1 ha.2), emitToken_symbol,
      (symbolAtom_signedDecimal_iff i).2 ⟨hplain, ha.2⟩]

structure Printed (a : Atom) : Prop where
  lexical : LexicalAtom a
  oneLine : OneLineAtom a

theorem lex_plain_items {f : Forest Atom} (hf : ∀ a ∈ atoms f, Printed a)
    (hplain : ∀ a ∈ atoms f, PlainAtom a) (toks : List Token) (rest : List Byte) :
    lexRun (idle toks) (renderItems atomText f ++ 41 :: rest) =
      lexRun (idle (toks ++ flatten f)) (41 :: rest) := by
  have hleaf : ∀ a ∈ atoms f, LexesTo (atomText a) (id a) True := fun a ha =>
    lexesTo_of_plain (hf a ha).lexical (hf a ha).oneLine (hplain a ha)
  have hitems := lex_items hleaf toks rest
  rwa [if_pos (fun _ _ => trivial), map_id] at hitems

theorem zero_notMem_separator (f : Forest Atom) : 0 ∉ separator f := by
  have hblank : (0 : Byte) ∉ [32] := by decide
  cases f with
  | nil => exact List.not_mem_nil
  | atom a tail => exact hblank
  | group items tail => exact hblank

theorem zero_notMem_renderItems {f : Forest Atom} (hf : ∀ a ∈ atoms f, Printed a) :
    0 ∉ renderItems atomText f := by
  induction f with
  | nil => exact List.not_mem_nil
  | atom a tail ih =>
    have ha := zero_notMem_atomText (hf a List.mem_cons_self).lexical
    have htail := ih fun b hb => hf b (List.mem_cons_of_mem _ hb)
    simp only [renderItems, List.mem_append, not_or]
    exact ⟨⟨ha, zero_notMem_separator tail⟩, htail⟩
  | group items tail ihi iht =>
    have hitems := ihi fun b hb => hf b (List.mem_append_left _ hb)
    have htail := iht fun b hb => hf b (List.mem_append_right _ hb)
    simp only [renderItems, List.mem_append, List.mem_singleton, not_or]
    exact ⟨⟨⟨⟨by decide, hitems⟩, by decide⟩, zero_notMem_separator tail⟩, htail⟩

/-- When the items of a printed list all come back, they are plain: the first that is not would make
another token. -/
theorem plain_of_reread_items {f : Forest Atom} (hf : ∀ a ∈ atoms f, Printed a) (hrest : 0 ∉ rest)
    (h : lexRun (idle toks) (renderItems atomText f ++ 41 :: rest) = some l)
    (htoks : toks ++ flatten f <+: l.parsedTokens) : ∀ a ∈ atoms f, PlainAtom a := by
  have hzero : ∀ {g : Forest Atom} {rest : List Byte}, (∀ a ∈ atoms g, Printed a) → 0 ∉ rest →
      0 ∉ separator g ++ renderItems atomText g ++ 41 :: rest := by
    intro g rest hg hrest
    simp only [List.mem_append, List.mem_cons, not_or]
    exact ⟨⟨zero_notMem_separator g, zero_notMem_renderItems hg⟩, by decide, hrest⟩
  induction f generalizing toks rest with
  | nil => exact fun a ha => by cases ha
  | atom a tail ih =>
    have hatom := hf a List.mem_cons_self
    have htail := fun b hb => hf b (List.mem_cons_of_mem a hb)
    obtain ⟨d, w, hd, hw, hskip⟩ := lexRun_separator tail atomText rest
    have hzero' := hzero htail hrest
    rw [hw] at hzero'
    rw [renderItems, List.append_assoc, List.append_assoc, ← List.append_assoc (separator tail),
      hw] at h
    rw [flatten, List.append_cons] at htoks
    have hplain : PlainAtom a := plain_of_reread hatom.lexical hatom.oneLine hzero' hd h
      ((List.prefix_append _ _).trans htoks)
    rw [lexesTo_of_plain hatom.lexical hatom.oneLine hplain toks d w hd, if_pos trivial, hskip] at h
    intro b hb
    rcases List.mem_cons.1 hb with rfl | hb
    · exact hplain
    · exact ih htail hrest h htoks b hb
  | group items tail ihi iht =>
    have hitems := fun b hb => hf b (List.mem_append_left (atoms tail) hb)
    have htail := fun b hb => hf b (List.mem_append_right (atoms items) hb)
    obtain ⟨d, w, hd, hw, hskip⟩ := lexRun_separator tail atomText rest
    have hzero' := hzero htail hrest
    rw [hw] at hzero'
    rw [renderItems] at h
    simp only [List.append_assoc, List.cons_append, List.nil_append] at h
    rw [← List.append_assoc (separator tail), hw, lexRun_left] at h
    rw [flatten, List.append_cons, ← List.append_assoc, List.append_cons] at htoks
    have hplain := ihi hitems hzero' h (((List.prefix_append _ _).trans
      (List.prefix_append _ _)).trans htoks)
    rw [lex_plain_items hitems hplain, lexRun_right, hskip] at h
    intro b hb
    rcases List.mem_append.1 hb with hb | hb
    · exact hplain b hb
    · exact iht htail hrest h htoks b hb

end Reread

/-! ### The round trip -/

section RoundTrip
variable {P : Atom → Prop} {t : List Token}

theorem valAll_atomVal (a : Atom) : ValAll P (atomVal a) ↔ P a := by
  cases a <;> exact Iff.rfl

theorem valAll_consList (vs : List ParsedVal) :
    ValAll P (consList vs) ↔ ∀ v ∈ vs, ValAll P v := by
  induction vs with
  | nil => exact iff_of_true trivial fun v hv => by cases hv
  | cons v vs ih => rw [consList, ValAll, ih, List.forall_mem_cons]

theorem valAll_listVal (vs : List ParsedVal) : ValAll P (listVal vs) ↔ ∀ v ∈ vs, ValAll P v := by
  cases vs with
  | nil => exact iff_of_true ⟨trivial, trivial⟩ fun v hv => by cases hv
  | cons v vs => exact valAll_consList (v :: vs)

theorem valAll_values (f : Forest Atom) :
    ValAll P (listVal (values f)) ↔ ∀ a ∈ atoms f, P a := by
  rw [valAll_listVal]
  induction f with
  | nil => exact iff_of_true (fun v hv => by cases hv) fun a ha => by cases ha
  | atom a tail ih =>
    rw [values, List.forall_mem_cons, valAll_atomVal, ih, atoms, List.forall_mem_cons]
  | group items tail ihi iht =>
    rw [values, List.forall_mem_cons, valAll_listVal, ihi, iht, atoms, List.forall_mem_append]

theorem reads_back_atom_iff {a : Atom} (ha : Printed a) : ReadsBack (atomVal a) ↔ PlainAtom a := by
  constructor
  · rintro ⟨text, l, t, hdump, hlex, hread⟩
    rw [dumpVal_atomVal] at hdump
    obtain rfl := Option.some.inj hdump
    have htoks : [] ++ [Mark.atom a] <+: l.parsedTokens := by
      rcases readForm_cases hread with ⟨hnull, -⟩ | ⟨b, t', hb, htokens⟩ | ⟨f, hf, -⟩
      · exact absurd hnull (atomVal_ne_null a)
      · rw [htokens, ← atomVal_injective hb]
        exact List.prefix_append [Mark.atom a] t'
      · exact absurd hf (atomVal_ne_listVal a _)
    exact plain_of_reread ha.lexical ha.oneLine (by decide) (Or.inl rfl) hlex htoks
  · intro hplain
    have hlex := lexesTo_of_plain ha.lexical ha.oneLine hplain [] 32 [] (Or.inl rfl)
    rw [if_pos trivial] at hlex
    exact ⟨_, _, _, dumpVal_atomVal a, hlex, readForm_atom [] a⟩

theorem lex_list (items : List Byte) : lexRun lexStart ([40] ++ items ++ [41] ++ [32]) =
    lexRun (idle [.left]) (items ++ 41 :: [32]) := by
  rw [List.append_assoc, List.append_assoc, List.singleton_append]
  rfl

theorem lex_plain_list {f : Forest Atom} (hf : ∀ a ∈ atoms f, Printed a)
    (hplain : ∀ a ∈ atoms f, PlainAtom a) :
    lexRun lexStart ([40] ++ renderItems atomText f ++ [41] ++ [32]) =
      some (idle (.left :: (flatten f ++ [.right]))) := by
  rw [lex_list, lex_plain_items hf hplain, lexRun_right]
  rfl

theorem reads_back_list_iff {f : Forest Atom} (hf : ∀ a ∈ atoms f, Printed a) :
    ReadsBack (listVal (values f)) ↔ ∀ a ∈ atoms f, PlainAtom a := by
  constructor
  · rintro ⟨text, l, t, hdump, hlex, hread⟩
    rw [dumpVal_values] at hdump
    obtain rfl := Option.some.inj hdump
    rw [lex_list] at hlex
    have htoks : [Mark.left] ++ flatten f <+: l.parsedTokens := by
      rcases readForm_cases hread with ⟨hnull, -⟩ | ⟨b, -, hb, -⟩ | ⟨g, hg, hclosed⟩
      · exact absurd hnull (listVal_ne_null _)
      · exact absurd hb.symm (atomVal_ne_listVal b _)
      · obtain rfl := listVal_values_inj hg
        rcases hclosed with ⟨t', htokens⟩ | htokens
        · rw [htokens]
          exact List.prefix_append (Mark.left :: flatten f) _
        · rw [htokens]
          exact List.prefix_rfl
    exact plain_of_reread_items hf (by decide) hlex htoks
  · intro hplain
    exact ⟨_, _, [Mark.right], dumpVal_values f, lex_plain_list hf hplain, readForm_group f []⟩

theorem emitted_string {txt : List Byte} (hzero : 0 ∉ txt) (hlen : txt.length ≤ textMax) :
    Emitted [.atom (.string txt)] := by
  have hlex : lexRun (idle []) (quoted txt ++ []) = _ := lex_quoted hzero
  rw [if_pos hlen] at hlex
  exact ⟨quoted txt ++ [], congrArg (Option.map Lexer.parsedTokens) hlex⟩

/-- A value read from emitted tokens, printed and read again, is itself exactly when it is plain. -/
theorem reads_back_iff (ht : Emitted t) {v : ParsedVal} {r : List Token}
    (hread : readForm t = some (v, r)) (hv : v ≠ .null) (hline : ValAll OneLineAtom v) :
    ReadsBack v ↔ ValAll PlainAtom v := by
  have hlex := ht.lexical
  rcases readForm_cases hread with ⟨hnull, -⟩ | ⟨a, t', rfl, rfl⟩ | ⟨f, rfl, htokens⟩
  · exact absurd hnull hv
  · rw [valAll_atomVal] at hline ⊢
    exact reads_back_atom_iff ⟨hlex a List.mem_cons_self, hline⟩
  · rw [valAll_values] at hline ⊢
    apply reads_back_list_iff
    intro a ha
    refine ⟨hlex a ?_, hline a ha⟩
    have hmem := mem_flatten.2 ha
    rcases htokens with ⟨t', rfl⟩ | rfl
    · exact List.mem_cons_of_mem _ (List.mem_append_left _ hmem)
    · exact List.mem_cons_of_mem _ hmem

theorem emitted_plain {f : Forest Atom} (hf : ∀ a ∈ atoms f, Printed a)
    (hplain : ∀ a ∈ atoms f, PlainAtom a) : Emitted (.left :: (flatten f ++ [.right])) :=
  ⟨_, congrArg (Option.map Lexer.parsedTokens) (lex_plain_list hf hplain)⟩

/-- `(a () ("b c" 12))` -/
def nestedList : Forest Atom :=
  .atom (.symbol [97]) (.group .nil (.group (.atom (.string [98, 32, 99]) (.atom (.int 12) .nil)) .nil))

theorem printed_nestedList : ∀ a ∈ atoms nestedList, Printed a ∧ PlainAtom a := by
  have hatoms : atoms nestedList = [.symbol [97], .string [98, 32, 99], .int 12] := rfl
  rw [hatoms]
  simp only [List.forall_mem_cons, List.not_mem_nil, false_implies, implies_true, and_true]
  refine ⟨⟨⟨?_, ?_⟩, ?_⟩, ⟨⟨?_, ?_⟩, ?_⟩, ⟨?_, trivial⟩, ?_⟩
  · exact ⟨by decide, fun b hb => by rw [List.mem_singleton.1 hb]; decide, by decide, one_le_textMax⟩
  · exact fun b hb => by rw [List.mem_singleton.1 hb]; decide
  · exact ⟨by decide, by decide⟩
  · exact ⟨by decide, show 3 ≤ sValBufSize - 2 by unfold sValBufSize; omega⟩
  · exact fun b hb => by fin_cases hb <;> decide
  · exact ⟨by decide, by decide⟩
  · exact ⟨by decide, by decide⟩
  · exact show (0 : ℤ) ≤ 12 by decide

theorem reads_back_nested : ReadsBack (listVal (values nestedList)) ↔
    ValAll PlainAtom (listVal (values nestedList)) :=
  have hprinted := fun a ha => (printed_nestedList a ha).1
  reads_back_iff (emitted_plain hprinted fun a ha => (printed_nestedList a ha).2)
    (readForm_group nestedList []) (listVal_ne_null _)
    ((valAll_values nestedList).2 fun a ha => (hprinted a ha).oneLine)

/-- The string of one quote, typed as `"\""`, is printed as `"""`. -/
theorem quote_not_read_back :
    Emitted [.atom (.string [34])] ∧
      readForm [.atom (.string [34])] = some (.str [34], [.atom (.string [34])]) ∧
      ¬ ReadsBack (.str [34]) := by
  have hzero : (0 : Byte) ∉ [34] := by decide
  have hline : OneLineAtom (.string [34]) := List.forall_mem_singleton.2 (by decide)
  refine ⟨emitted_string hzero one_le_textMax, rfl, ?_⟩
  have hprinted : Printed (.string [34]) := ⟨⟨hzero, one_le_textMax⟩, hline⟩
  intro h
  have hplain := (reads_back_atom_iff hprinted).1 h
  exact hplain.1 List.mem_cons_self

end RoundTrip

end MutantC.SexpParse
