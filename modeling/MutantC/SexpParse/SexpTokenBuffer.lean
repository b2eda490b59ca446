import MutantC.SexpParse.SexpSession

/-! Where the main loop writes in the token buffer: inside it as long as no token has taken more than 1022
characters. -/

namespace MutantC.SexpParse
open CBuffer Iteration

/-! ### The writes -/

def startTextWrites (blk : List Byte) (c : Byte) : List ℕ :=
  match (store blk 0 c).bind strlen with
  | none => [0]
  | some n => [0, n + 1]

def addTextWrites (blk : List Byte) (c : Byte) : List ℕ :=
  match strlen blk with
  | none => []
  | some n =>
    match (store blk n c).bind strlen with
    | none => [n]
    | some m => [n, m + 1]

/-- The indices of `s_val_buf` that the `switch(cur_state)` of `main` writes to for one character. -/
def bufferWrites (l : Lexer) (c : Byte) : List ℕ :=
  match l.curState with
  | .start =>
    if c = 40 ∨ c = 41 ∨ (c = 32 ∨ c = 13 ∨ c = 10) then []
    else if c = 34 then []
    else startTextWrites callocBuf c
  | .inStringEscape => l.sValBuf.elim [] fun blk => addTextWrites blk c
  | .inString =>
    if c = 92 then [] else if c = 34 then [] else l.sValBuf.elim [] fun blk => addTextWrites blk c
  | .inSymbol => if c = 41 ∨ c = 32 then [] else l.sValBuf.elim [] fun blk => addTextWrites blk c

section Writes
variable {txt : List Byte} {c : Byte}

theorem addTextWrites_padded (htxt : 0 ∉ txt) (hc : c ≠ 0) (hlen : txt.length ≤ textMax) :
    addTextWrites (padded txt) c = [txt.length, txt.length + 2] := by
  have hsnoc : cstr (txt ++ [c] ++ 0 :: List.replicate (sValBufSize - txt.length - 2) 0) =
      some (txt ++ [c]) := by
    apply cstr_append
    exact zero_notMem_snoc htxt hc
  unfold addTextWrites
  simp only [strlen_eq (cstr_padded htxt hlen), store_padded hlen, Option.bind_some, strlen_eq hsnoc,
    List.length_append, List.length_singleton]

theorem addTextWrites_zero (htxt : 0 ∉ txt) (hlen : txt.length ≤ textMax) :
    addTextWrites (padded txt) 0 = [txt.length, txt.length + 1] := by
  have hcstr := strlen_eq (cstr_padded htxt hlen)
  have hlt : txt.length < sValBufSize := lt_of_le_of_lt hlen (by decide)
  unfold addTextWrites
  simp only [hcstr, store_zero_padded le_rfl hlt hlen, Option.bind_some]

theorem startTextWrites_eq (c : Byte) : startTextWrites callocBuf c = addTextWrites (padded []) c := by
  have hlen : strlen (padded []) = some 0 :=
    strlen_eq (cstr_padded (fun h => by cases h) (Nat.zero_le _))
  unfold startTextWrites addTextWrites
  simp only [callocBuf_eq, hlen]

end Writes

/-! ### Counting the characters of a token -/

/-- A NUL goes where the terminator is. -/
def collect (n : ℕ) (c : Byte) : ℕ := if c = 0 then n else n + 1

/-- The tokenizer's state without its buffer: how many characters the token has taken. -/
def countStep : ParseState × ℕ → Byte → ParseState × ℕ
  | (.start, _), c =>
    if c = 40 ∨ c = 41 ∨ (c = 32 ∨ c = 13 ∨ c = 10) then (.start, 0)
    else if c = 34 then (.inString, 0)
    else (.inSymbol, collect 0 c)
  | (.inStringEscape, n), c => (.inString, collect n c)
  | (.inString, n), c =>
    if c = 92 then (.inStringEscape, n) else if c = 34 then (.start, 0) else (.inString, collect n c)
  | (.inSymbol, n), c => if c = 41 ∨ c = 32 then (.start, 0) else (.inSymbol, collect n c)

def count (cs : List Byte) : ParseState × ℕ := cs.foldl countStep (.start, 0)

/-- The characters that the last token of the input has taken so far. -/
def tokenLength (cs : List Byte) : ℕ := (count cs).2

def Counted (l : Lexer) (p : ParseState × ℕ) : Prop :=
  l.curState = p.1 ∧ p.2 ≤ textMax ∧
    (l.curState ≠ .start → ∃ txt, l.sValBuf = some (padded txt) ∧ 0 ∉ txt ∧ txt.length = p.2)

section Counting
variable {l l' : Lexer} {p : ParseState × ℕ} {txt : List Byte} {c : Byte}

theorem addTextWrites_lt_iff (htxt : 0 ∉ txt) (hlen : txt.length ≤ textMax) :
    (∀ i ∈ addTextWrites (padded txt) c, i < sValBufSize) ↔ collect txt.length c ≤ textMax := by
  have hmax : textMax + 2 = sValBufSize := rfl
  unfold collect
  split_ifs with hc
  · subst hc
    rw [addTextWrites_zero htxt hlen]
    refine iff_of_true ?_ hlen
    simp only [List.forall_mem_cons, List.not_mem_nil, false_implies, implies_true, and_true]
    omega
  · rw [addTextWrites_padded htxt hc hlen]
    simp only [List.forall_mem_cons, List.not_mem_nil, false_implies, implies_true, and_true]
    omega

theorem addText_counted {blk : List Byte} (htxt : 0 ∉ txt) (hlen : txt.length ≤ textMax)
    (h : addText (padded txt) c = some blk) :
    ∃ txt', blk = padded txt' ∧ 0 ∉ txt' ∧ txt'.length = collect txt.length c ∧
      txt'.length ≤ textMax := by
  unfold collect
  split_ifs with hc
  · subst hc
    rw [addText_zero htxt hlen] at h
    exact ⟨txt, (Option.some.inj h).symm, htxt, rfl, hlen⟩
  · rw [addText_padded htxt hc hlen] at h
    split_ifs at h with hfits
    refine ⟨txt ++ [c], (Option.some.inj h).symm, ?_, List.length_append, hfits⟩
    exact zero_notMem_snoc htxt hc

theorem Counted.of_start {buf : Option (List Byte)} {toks : List Token} :
    Counted ⟨.start, buf, toks⟩ (.start, 0) :=
  ⟨rfl, Nat.zero_le _, fun h => absurd rfl h⟩

theorem Counted.of_text {st : ParseState} {toks : List Token} (htxt : 0 ∉ txt)
    (hlen : txt.length ≤ textMax) : Counted (collecting st txt toks) (st, txt.length) :=
  ⟨rfl, hlen, fun _ => ⟨txt, rfl, htxt, rfl⟩⟩

theorem Counted.cases (h : Counted l p) :
    (∃ buf toks n, l = ⟨.start, buf, toks⟩ ∧ p = (.start, n)) ∨
      ∃ st txt toks, st ≠ .start ∧ 0 ∉ txt ∧ txt.length ≤ textMax ∧ l = collecting st txt toks ∧
        p = (st, txt.length) := by
  obtain ⟨st, buf, toks⟩ := l
  obtain ⟨st', n⟩ := p
  obtain ⟨rfl, hlen, hbuf⟩ := h
  by_cases hst : st = .start
  · subst hst
    exact Or.inl ⟨buf, toks, n, rfl, rfl⟩
  · obtain ⟨txt, rfl, htxt, rfl⟩ := hbuf hst
    exact Or.inr ⟨st, txt, toks, hst, htxt, hlen, rfl, rfl⟩

theorem Counted.writes_iff (h : Counted l p) (c : Byte) :
    (∀ i ∈ bufferWrites l c, i < sValBufSize) ↔ (countStep p c).2 ≤ textMax := by
  have hnone : (∀ i ∈ ([] : List ℕ), i < sValBufSize) := List.forall_mem_nil _
  rcases h.cases with ⟨buf, toks, n, rfl, rfl⟩ | ⟨st, txt, toks, hst, htxt, hlen, rfl, rfl⟩
  · have hadd := addTextWrites_lt_iff (c := c) List.not_mem_nil (Nat.zero_le textMax)
    rw [← startTextWrites_eq] at hadd
    unfold bufferWrites countStep
    simp only
    split_ifs
    · exact iff_of_true hnone (Nat.zero_le textMax)
    · exact iff_of_true hnone (Nat.zero_le textMax)
    · exact hadd
  · have hadd := addTextWrites_lt_iff (c := c) htxt hlen
    cases st with
    | start => exact absurd rfl hst
    | inStringEscape => exact hadd
    | inString =>
      unfold bufferWrites countStep
      simp only [collecting, Option.elim_some]
      split_ifs
      · exact iff_of_true hnone hlen
      · exact iff_of_true hnone (Nat.zero_le textMax)
      · exact hadd
    | inSymbol =>
      unfold bufferWrites countStep
      simp only [collecting, Option.elim_some]
      split_ifs
      · exact iff_of_true hnone (Nat.zero_le textMax)
      · exact hadd

theorem Counted.addText {st : ParseState} {toks : List Token} (htxt : 0 ∉ txt)
    (hlen : txt.length ≤ textMax) {blk : List Byte} (h : addText (padded txt) c = some blk) :
    Counted ⟨st, some blk, toks⟩ (st, collect txt.length c) := by
  obtain ⟨txt', rfl, htxt', hcount, hlen'⟩ := addText_counted htxt hlen h
  rw [← hcount]
  exact Counted.of_text htxt' hlen'

theorem Counted.step_start {buf : Option (List Byte)} {toks : List Token} {n : ℕ}
    (hs : lexStep ⟨.start, buf, toks⟩ c = some l') : Counted l' (countStep (.start, n) c) := by
  by_cases hskip : c = 40 ∨ c = 41 ∨ (c = 32 ∨ c = 13 ∨ c = 10)
  · obtain ⟨toks', hs'⟩ : ∃ toks', lexStep ⟨.start, buf, toks⟩ c = some ⟨.start, buf, toks'⟩ := by
      rcases hskip with rfl | rfl | rfl | rfl | rfl <;> exact ⟨_, rfl⟩
    rw [← Option.some.inj (hs'.symm.trans hs), countStep, if_pos hskip]
    exact Counted.of_start
  by_cases h34 : c = 34
  · subst h34
    rw [← Option.some.inj hs]
    exact Counted.of_text List.not_mem_nil (Nat.zero_le _)
  · rw [lexStep_newSymbol hskip h34] at hs
    obtain ⟨blk, hblk, rfl⟩ := Option.map_eq_some_iff.1 hs
    rw [countStep, if_neg hskip, if_neg h34]
    exact Counted.addText List.not_mem_nil (Nat.zero_le _) hblk

theorem Counted.step (h : Counted l p) (hs : lexStep l c = some l') : Counted l' (countStep p c) := by
  rcases h.cases with ⟨buf, toks, n, rfl, rfl⟩ | ⟨st, txt, toks, hst, htxt, hlen, rfl, rfl⟩
  · exact Counted.step_start hs
  cases st with
  | start => exact absurd rfl hst
  | inStringEscape =>
    rw [lexStep_escaped] at hs
    obtain ⟨blk, hblk, rfl⟩ := Option.map_eq_some_iff.1 hs
    exact Counted.addText htxt hlen hblk
  | inString =>
    by_cases h92 : c = 92
    · subst h92
      rw [← Option.some.inj hs]
      exact Counted.of_text htxt hlen
    by_cases h34 : c = 34
    · subst h34
      have hfinish : (collecting .inString txt toks).finish .string = some l' := hs
      rw [finish_collecting _ htxt hlen] at hfinish
      rw [← Option.some.inj hfinish]
      exact Counted.of_start
    · rw [lexStep_inString h34 h92] at hs
      obtain ⟨blk, hblk, rfl⟩ := Option.map_eq_some_iff.1 hs
      rw [countStep, if_neg h92, if_neg h34]
      exact Counted.addText htxt hlen hblk
  | inSymbol =>
    by_cases hend : c = 41 ∨ c = 32
    · rw [lexStep_endSymbol htxt hlen hend.symm] at hs
      rw [countStep, if_pos hend]
      rcases hend with rfl | rfl
      · rw [← Option.some.inj hs]
        exact Counted.of_start
      · rw [← Option.some.inj hs]
        exact Counted.of_start
    · obtain ⟨h41, h32⟩ := not_or.1 hend
      rw [lexStep_inSymbol h32 h41] at hs
      obtain ⟨blk, hblk, rfl⟩ := Option.map_eq_some_iff.1 hs
      rw [countStep, if_neg hend]
      exact Counted.addText htxt hlen hblk

theorem exists_addText (htxt : 0 ∉ txt) (hlen : txt.length ≤ textMax)
    (hfits : collect txt.length c ≤ textMax) : ∃ blk, addText (padded txt) c = some blk := by
  unfold collect at hfits
  split_ifs at hfits with hc
  · subst hc
    exact ⟨_, addText_zero htxt hlen⟩
  · have hroom : (txt ++ [c]).length ≤ textMax := List.length_append.trans_le hfits
    rw [addText_padded htxt hc hlen, if_pos hroom]
    exact ⟨_, rfl⟩

theorem exists_lexStep_start {buf : Option (List Byte)} {toks : List Token} {n : ℕ}
    (hfits : (countStep (.start, n) c).2 ≤ textMax) : ∃ l', lexStep ⟨.start, buf, toks⟩ c = some l' := by
  by_cases hskip : c = 40 ∨ c = 41 ∨ (c = 32 ∨ c = 13 ∨ c = 10)
  · rcases hskip with rfl | rfl | rfl | rfl | rfl <;> exact ⟨_, rfl⟩
  by_cases h34 : c = 34
  · subst h34
    exact ⟨_, rfl⟩
  · rw [countStep, if_neg hskip, if_neg h34] at hfits
    obtain ⟨blk, hblk⟩ := exists_addText List.not_mem_nil (Nat.zero_le _) hfits
    rw [lexStep_newSymbol hskip h34, hblk]
    exact ⟨_, rfl⟩

theorem Counted.lexStep_iff (h : Counted l p) (c : Byte) :
    (∃ l', lexStep l c = some l') ↔ ∀ i ∈ bufferWrites l c, i < sValBufSize := by
  rw [h.writes_iff]
  constructor
  · rintro ⟨l', hs⟩
    exact (h.step hs).2.1
  intro hfits
  rcases h.cases with ⟨buf, toks, n, rfl, rfl⟩ | ⟨st, txt, toks, hst, htxt, hlen, rfl, rfl⟩
  · exact exists_lexStep_start hfits
  cases st with
  | start => exact absurd rfl hst
  | inStringEscape =>
    obtain ⟨blk, hblk⟩ := exists_addText htxt hlen hfits
    rw [lexStep_escaped, hblk]
    exact ⟨_, rfl⟩
  | inString =>
    by_cases h92 : c = 92
    · subst h92
      exact ⟨_, rfl⟩
    by_cases h34 : c = 34
    · subst h34
      exact ⟨_, finish_collecting .string htxt hlen⟩
    · rw [countStep, if_neg h92, if_neg h34] at hfits
      obtain ⟨blk, hblk⟩ := exists_addText htxt hlen hfits
      rw [lexStep_inString h34 h92, hblk]
      exact ⟨_, rfl⟩
  | inSymbol =>
    by_cases hend : c = 41 ∨ c = 32
    · rw [lexStep_endSymbol htxt hlen hend.symm]
      rcases hend with rfl | rfl <;> exact ⟨_, rfl⟩
    · obtain ⟨h41, h32⟩ := not_or.1 hend
      rw [countStep, if_neg hend] at hfits
      obtain ⟨blk, hblk⟩ := exists_addText htxt hlen hfits
      rw [lexStep_inSymbol h32 h41, hblk]
      exact ⟨_, rfl⟩

end Counting

/-! ### The main loop -/

def beforeSwitch (s : Session) (c : Byte) : Option Session :=
  if c = 10 ∨ c = 13 then dumpState s else some ((s.addExpr c).printf clearScreen)

/-- After the input `p` the main loop reads `c`, and comes to its `switch` in state `s`. -/
def AtSwitch (p : List Byte) (c : Byte) (s : Session) : Prop :=
  ∃ s₀, run mainStep mainStart p = some s₀ ∧ beforeSwitch s₀ c = some s

theorem mainStep_eq (s : Session) (c : Byte) : mainStep s c =
    (beforeSwitch s c).bind fun s => (lexStep s.lexer c).map fun l =>
      (Session.printf { s with lexer := l } [10, 13]).printf ([10, 13] ++ s.exprbuf) := by
  unfold mainStep beforeSwitch
  simp only [Option.bind_eq_bind, Option.map_eq_bind]
  split_ifs <;> rfl

theorem counted_beforeSwitch {s s' : Session} {p : ParseState × ℕ} {c : Byte} (h : Counted s.lexer p)
    (hs : beforeSwitch s c = some s') : Counted s'.lexer p := by
  unfold beforeSwitch at hs
  split_ifs at hs
  · obtain ⟨t, text, -, -, hlexer⟩ := dumpState_some hs
    rw [hlexer]
    exact h
  · obtain rfl := Option.some.inj hs
    rw [← s.addExpr_lexer c] at h
    exact h

theorem counted_run {s s' : Session} {p : ParseState × ℕ} {cs : List Byte} (h : Counted s.lexer p)
    (hrun : run mainStep s cs = some s') : Counted s'.lexer (cs.foldl countStep p) := by
  induction cs generalizing s p with
  | nil => exact Option.some.inj hrun ▸ h
  | cons c cs ih =>
    obtain ⟨s₁, hstep, hrest⟩ := Option.bind_eq_some_iff.1 hrun
    rw [mainStep_eq] at hstep
    obtain ⟨s₂, hswitch, hstep⟩ := Option.bind_eq_some_iff.1 hstep
    obtain ⟨l, hlex, rfl⟩ := Option.map_eq_some_iff.1 hstep
    exact ih ((counted_beforeSwitch h hswitch).step hlex) hrest

theorem AtSwitch.counted {p : List Byte} {c : Byte} {s : Session} (h : AtSwitch p c s) :
    Counted s.lexer (count p) := by
  obtain ⟨s₀, hrun, hswitch⟩ := h
  exact counted_beforeSwitch (counted_run Counted.of_start hrun) hswitch

theorem bufferWrites_lt_iff {p : List Byte} {c : Byte} {s : Session} (h : AtSwitch p c s) :
    (∀ i ∈ bufferWrites s.lexer c, i < sValBufSize) ↔ tokenLength (p ++ [c]) ≤ textMax := by
  rw [h.counted.writes_iff, tokenLength, count, count, List.foldl_append]
  rfl

/-- On every input, all the writes are inside the buffer exactly when no token takes more than 1022
characters, those that the loop does not come to aside; and the `switch` gets through exactly where
its writes are inside. -/
theorem buffer_writes_iff (cs : List Byte) :
    ((∀ p c rest s, cs = p ++ c :: rest → AtSwitch p c s → ∀ i ∈ bufferWrites s.lexer c, i < 1024) ↔
      ∀ p c rest s, cs = p ++ c :: rest → AtSwitch p c s → tokenLength (p ++ [c]) ≤ 1022) ∧
    ∀ p c rest s, cs = p ++ c :: rest → AtSwitch p c s →
      ((∃ l, lexStep s.lexer c = some l) ↔ ∀ i ∈ bufferWrites s.lexer c, i < 1024) := by
  refine ⟨⟨fun h p c rest s hcs hs => ?_, fun h p c rest s hcs hs => ?_⟩, fun p c rest s _ hs => ?_⟩
  · exact (bufferWrites_lt_iff hs).1 (h p c rest s hcs hs)
  · exact (bufferWrites_lt_iff hs).2 (h p c rest s hcs hs)
  · exact hs.counted.lexStep_iff c

theorem bufferWrites_inSymbol (txt : List Byte) (toks : List Token) {c : Byte} (hc : SymbolChar c) :
    bufferWrites (collecting .inSymbol txt toks) c = addTextWrites (padded txt) c :=
  if_neg (not_or.2 ⟨hc.2.2, hc.2.1⟩)

/-- A symbol of 1023 letters. -/
theorem long_symbol_overruns :
    ∃ p c s, List.replicate 1023 97 = p ++ [c] ∧ AtSwitch p c s ∧ ∃ i ∈ bufferWrites s.lexer c, 1024 ≤ i := by
  have hsym : IsSymbolText (List.replicate 1022 97) := by
    refine ⟨by decide, fun b hb => ?_⟩
    rw [List.eq_of_mem_replicate hb]
    decide
  have hline : ∀ b ∈ List.replicate 1022 (97 : Byte), b ≠ 10 ∧ b ≠ 13 := by
    intro b hb
    rw [List.eq_of_mem_replicate hb]
    decide
  have hsplit : List.replicate 1023 (97 : Byte) = List.replicate 1022 97 ++ [97] := List.replicate_succ'
  have hlen : (List.replicate 1022 (97 : Byte)).length = 1022 := List.length_replicate
  generalize List.replicate 1022 (97 : Byte) = txt at *
  obtain ⟨out, expr, hrun⟩ := run_chars hline mainStart
  have hlex : lexRun (idle []) (txt ++ []) = _ := lexRun_symbolText hsym []
  rw [List.append_nil, if_pos (show txt.length ≤ textMax from hlen.le)] at hlex
  rw [show mainStart.lexer = idle [] from rfl, hlex] at hrun
  refine ⟨txt, 97, _, hsplit, ⟨_, hrun, rfl⟩, 1024, ?_, le_rfl⟩
  have hwrites : bufferWrites (collecting .inSymbol txt []) 97 = [txt.length, txt.length + 2] :=
    (bufferWrites_inSymbol txt [] (by decide)).trans
      (addTextWrites_padded (zero_notMem_of_isSymbolText hsym) (by decide) hlen.le)
  rw [hlen] at hwrites
  exact hwrites.symm ▸ List.mem_cons_of_mem _ List.mem_cons_self

end MutantC.SexpParse
