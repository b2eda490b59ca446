import MutantC.FancyReadline.ReadlineSafety

/-! The counters of the editor on any run: how the cursor, the column and the length bound each other
whatever the buffer holds, and what they count exactly while text is only appended. -/

namespace MutantC.FancyReadline
open CBuffer Iteration

/-! ### The counters alone -/

structure Cursor where
  promptLen : ℕ
  len : ℤ
  offs : ℤ
  col : ℤ
deriving DecidableEq

abbrev Editor.cursor (e : Editor) : Cursor :=
  ⟨e.frlPromptLen, e.curFrlInputLen, e.curCursorOffs, e.curCursorCol⟩

namespace Cursor

def advance (c : Cursor) (n : ℕ) : Cursor :=
  { c with len := c.len + n, offs := c.offs + n, col := c.col + n }

def lineStart (c : Cursor) : Cursor := { c with col := c.promptLen + 2 }

def backspace (c : Cursor) : Cursor :=
  if c.col ≤ c.promptLen + 2 then c
  else if c.len ≤ 0 then c
  else { c with len := c.len - 1, offs := c.offs - 1, col := c.col - 1 }

def moveleft (c : Cursor) : Cursor :=
  if c.col ≤ c.promptLen + 2 then c else { c with offs := c.offs - 1, col := c.col - 1 }

def moveright (c : Cursor) : Cursor :=
  if c.offs = c.len then c else { c with offs := c.offs + 1, col := c.col + 1 }

def press (c : Cursor) (indent : ℕ) : Key → Cursor
  | .char _ => c.advance 1
  | .enter => (c.advance 1).lineStart.advance indent
  | .backspace => c.backspace
  | .left => c.moveleft
  | .right => c.moveright

def run (c : Cursor) (keys : List (Key × ℕ)) : Cursor := keys.foldl (fun c k => c.press k.2 k.1) c

structure Bounded (c : Cursor) : Prop where
  col_ge : (c.promptLen : ℤ) + 2 ≤ c.col
  col_sub_nonneg : 0 ≤ c.col - (c.promptLen + 2)
  col_sub_le : c.col - (c.promptLen + 2) ≤ c.offs
  offs_le : c.offs ≤ c.len
  index_nonneg : ¬ c.col ≤ c.promptLen + 2 → 0 ≤ c.offs - 1

theorem Bounded.of_le {c : Cursor} (hge : (c.promptLen : ℤ) + 2 ≤ c.col)
    (hcol : c.col - (c.promptLen + 2) ≤ c.offs) (hoffs : c.offs ≤ c.len) : Bounded c :=
  ⟨hge, Int.sub_nonneg_of_le hge, hcol, hoffs, fun h => by omega⟩

theorem Bounded.advance {c : Cursor} (h : Bounded c) (n : ℕ) : Bounded (c.advance n) := by
  apply Bounded.of_le
  · exact le_trans h.col_ge (Int.le_add_of_nonneg_right (Int.natCast_nonneg n))
  · simpa only [Cursor.advance, add_sub_right_comm, add_le_add_iff_right] using h.col_sub_le
  · simpa only [Cursor.advance, add_le_add_iff_right] using h.offs_le

theorem Bounded.lineStart {c : Cursor} (h : Bounded c) : Bounded c.lineStart :=
  Bounded.of_le le_rfl (le_of_eq_of_le (sub_self _) (le_trans h.col_sub_nonneg h.col_sub_le)) h.offs_le

theorem Bounded.backspace {c : Cursor} (h : Bounded c) : Bounded c.backspace := by
  have hcol := h.col_sub_le
  have hoffs := h.offs_le
  unfold Cursor.backspace
  split_ifs with hfirst hempty
  · exact h
  · exact h
  · apply Bounded.of_le <;> simp only <;> omega

theorem Bounded.moveleft {c : Cursor} (h : Bounded c) : Bounded c.moveleft := by
  have hcol := h.col_sub_le
  have hoffs := h.offs_le
  unfold Cursor.moveleft
  split_ifs with hfirst
  · exact h
  · apply Bounded.of_le <;> simp only <;> omega

theorem Bounded.moveright {c : Cursor} (h : Bounded c) : Bounded c.moveright := by
  have hge := h.col_ge
  have hcol := h.col_sub_le
  unfold Cursor.moveright
  split_ifs with hend
  · exact h
  · have hlt := lt_of_le_of_ne h.offs_le hend
    apply Bounded.of_le <;> simp only <;> omega

/-- Every key keeps the bounds: deleting and moving left are guarded by the column, moving right by the
length. -/
theorem Bounded.press {c : Cursor} (h : Bounded c) (indent : ℕ) (key : Key) :
    Bounded (c.press indent key) := by
  cases key with
  | char _ => exact h.advance 1
  | enter => exact (h.advance 1).lineStart.advance indent
  | backspace => exact h.backspace
  | left => exact h.moveleft
  | right => exact h.moveright

theorem Bounded.run {c : Cursor} (h : Bounded c) (keys : List (Key × ℕ)) : Bounded (c.run keys) := by
  induction keys generalizing c with
  | nil => exact h
  | cons k keys ih => exact ih (h.press k.2 k.1)

end Cursor

section Counters
variable {fill : Editor → ℕ → Byte} {e e' : Editor}

theorem cursor_advance (e : Editor) (input : Option (List Byte)) (n : ℕ) :
    (e.advance input n).cursor = e.cursor.advance n := by
  simp only [Editor.cursor, Editor.advance, Cursor.advance, Nat.cast_add]

theorem cursor_addSpaces {n : ℕ} (h : addSpaces fill n e = some e') :
    e'.cursor = e.cursor.advance n := by
  induction n generalizing e with
  | zero =>
    obtain rfl := Option.some.inj h
    simp [Cursor.advance]
  | succ n ih =>
    obtain ⟨e₁, hadd, hrest⟩ := Option.bind_eq_some_iff.1 h
    obtain ⟨input, rfl, -⟩ := addchar_some hadd
    rw [ih hrest, cursor_advance]
    simp only [Cursor.advance, Nat.cast_add, Nat.cast_one, add_assoc, add_comm (1 : ℤ)]

theorem cursor_redisplay (h : fancyReadlineRedisplay e = some e') : e'.cursor = e.cursor := by
  obtain ⟨shown, out, rfl⟩ := redisplay_some h
  rfl

theorem cursor_backspace (h : fancyReadlineBackspace e = some e') :
    e'.cursor = e.cursor.backspace := by
  unfold fancyReadlineBackspace at h
  unfold Cursor.backspace
  split_ifs at h with hcol hlen
  · rw [← Option.some.inj h, if_pos hcol]
  · have hempty : (e.curFrlInputLen : ℤ) ≤ 0 := Int.ofNat_le.2 hlen
    rw [← Option.some.inj h, if_neg hcol, if_pos hempty]
  · have hpos : 1 ≤ e.curFrlInputLen := Nat.one_le_iff_ne_zero.2 fun h0 => hlen h0.le
    have hsome : ¬ (e.curFrlInputLen : ℤ) ≤ 0 := fun hle => hlen (Int.ofNat_le.1 hle)
    rw [if_neg hcol, if_neg hsome]
    simp only [Option.bind_eq_bind] at h
    obtain ⟨blk, -, h⟩ := Option.bind_eq_some_iff.1 h
    obtain ⟨-, -, h⟩ := Option.bind_eq_some_iff.1 h
    obtain ⟨blk', -, h⟩ := Option.bind_eq_some_iff.1 h
    rw [cursor_redisplay h]
    simp only [Editor.cursor, Editor.printf, Nat.cast_sub hpos, Nat.cast_one]

theorem cursor_moveleft (h : fancyReadlineMoveleft e = some e') : e'.cursor = e.cursor.moveleft := by
  unfold fancyReadlineMoveleft at h
  split_ifs at h with hcol
  · rw [← Option.some.inj h]
    exact (if_pos hcol).symm
  · exact (cursor_redisplay h).trans (if_neg hcol).symm

theorem cursor_moveright (h : fancyReadlineMoveright e = some e') : e'.cursor = e.cursor.moveright := by
  unfold fancyReadlineMoveright at h
  split_ifs at h with hend
  · rw [← Option.some.inj h]
    exact (if_pos hend).symm
  · exact (cursor_redisplay h).trans (if_neg hend).symm

theorem cursor_enter (h : fancyReadlineEnter fill e = some e') :
    ∃ indent, e'.cursor = (e.cursor.advance 1).lineStart.advance indent := by
  unfold fancyReadlineEnter at h
  simp only [Option.bind_eq_bind] at h
  obtain ⟨indent, -, hline⟩ := Option.bind_eq_some_iff.1 h
  obtain ⟨e₁, hadd, hspaces⟩ := Option.bind_eq_some_iff.1 hline
  obtain ⟨e₂, hspaces, hshow⟩ := Option.bind_eq_some_iff.1 hspaces
  obtain ⟨input, he₁, -⟩ := addchar_some hadd
  refine ⟨indent, (cursor_redisplay hshow).trans ((cursor_addSpaces hspaces).trans ?_)⟩
  rw [he₁]
  simp only [Cursor.lineStart, Cursor.advance, Editor.advance, Nat.cast_add]

theorem press_cursor {key : Key} (h : press fill e key = some e') :
    ∃ indent, e'.cursor = e.cursor.press indent key := by
  cases key with
  | char c =>
    obtain ⟨e₁, hadd, hshow⟩ := Option.bind_eq_some_iff.1 h
    obtain ⟨input, rfl, -⟩ := addchar_some hadd
    exact ⟨0, (cursor_redisplay hshow).trans (cursor_advance e input 1)⟩
  | enter => exact cursor_enter h
  | backspace => exact ⟨0, cursor_backspace h⟩
  | left => exact ⟨0, cursor_moveleft h⟩
  | right => exact ⟨0, cursor_moveright h⟩

theorem run_cursor {keys : List Key} (h : run (press fill) e keys = some e') :
    ∃ ks : List (Key × ℕ), ks.map Prod.fst = keys ∧ e'.cursor = e.cursor.run ks := by
  induction keys generalizing e with
  | nil =>
    obtain rfl := Option.some.inj h
    exact ⟨[], rfl, rfl⟩
  | cons key keys ih =>
    obtain ⟨e₁, hstep, hrest⟩ := Option.bind_eq_some_iff.1 h
    obtain ⟨indent, hcursor⟩ := press_cursor hstep
    obtain ⟨ks, rfl, hrun⟩ := ih hrest
    refine ⟨(key, indent) :: ks, rfl, ?_⟩
    rw [hrun, hcursor]
    rfl

end Counters

theorem bounded_start (prompt : List Byte) : (startFancyReadline prompt).cursor.Bounded :=
  Cursor.Bounded.of_le le_rfl (Int.sub_nonpos_of_le le_rfl) le_rfl

/-- After any keys the counters are in bounds: in every state that the editor reaches, and whatever
indentation `ENTER` is given. -/
theorem cursor_bounds (fill : Editor → ℕ → Byte) (prompt : List Byte) :
    (∀ keys e, run (press fill) (startFancyReadline prompt) keys = some e → e.cursor.Bounded) ∧
      ∀ keys : List (Key × ℕ), ((startFancyReadline prompt).cursor.run keys).Bounded := by
  refine ⟨fun keys e hrun => ?_, (bounded_start prompt).run⟩
  obtain ⟨ks, -, hcursor⟩ := run_cursor hrun
  rw [hcursor]
  exact (bounded_start prompt).run ks

/-! ### Appending only -/

/-- The keys of an append-only run: no moving left, and no newline before the input is there. -/
def AppendKey (e : Editor) (key : Key) : Prop :=
  key ≠ .left ∧ (key = .enter → e.curFrlInput ≠ none)

def appendText (txt : List Byte) : Key → List Byte
  | .char c => txt ++ [c.val]
  | .enter => txt ++ 10 :: List.replicate (indentOf txt) 32
  | .backspace => if lastLine txt = [] then txt else txt.dropLast
  | .left => txt
  | .right => txt

/-- The counters count the text: its length, its newlines, and the characters of its last line. -/
structure Appended (e : Editor) (txt : List Byte) : Prop where
  atEnd : AtEnd e txt
  lines : e.curFrlInputLines = txt.count 10
  col : e.curCursorCol = e.frlPromptLen + 2 + (lastLine txt).length

theorem appended_start (prompt : List Byte) : Appended (startFancyReadline prompt) [] :=
  ⟨⟨rfl, rfl, rfl⟩, rfl, (add_zero _).symm⟩

section Append
variable {fill : Editor → ℕ → Byte} {e e' : Editor} {txt : List Byte}

theorem lastLine_concat {c : Byte} (hc : c ≠ 10) (txt : List Byte) :
    lastLine (txt ++ [c]) = lastLine txt ++ [c] :=
  List.rtakeWhile_concat_pos _ _ c (decide_eq_true hc)

theorem lastLine_newLine (txt : List Byte) (n : ℕ) :
    lastLine (txt ++ 10 :: List.replicate n 32) = List.replicate n 32 := by
  apply lastLine_append
  intro hmem
  exact absurd (List.eq_of_mem_replicate hmem) (by decide)

theorem exists_concat_of_lastLine (h : lastLine txt ≠ []) : ∃ init c, txt = init ++ [c] ∧ c ≠ 10 := by
  rcases List.eq_nil_or_concat' txt with rfl | ⟨init, c, rfl⟩
  · exact absurd rfl h
  · refine ⟨init, c, rfl, ?_⟩
    rintro rfl
    exact h (List.rtakeWhile_concat_neg _ _ 10 (by decide))

theorem Appended.char (h : Appended e txt) (fill : Editor → ℕ → Byte) (c : Printable) :
    ∃ e', press fill e (.char c) = some e' ∧ Appended e' (txt ++ [c.val]) ∧ e'.curFrlInput ≠ none := by
  have hne : c.val ≠ 10 := by
    intro heq
    have hge := c.property.1
    rw [heq] at hge
    exact absurd hge (by decide)
  obtain ⟨blk, hadd, hend⟩ := h.atEnd.addchar fill c.ne_zero
  obtain ⟨shown, out, hshow⟩ := exists_redisplay
    (fun hn => absurd hn (Option.some_ne_none blk)) hend.text
  refine ⟨_, (congrArg (Option.bind · _) hadd).trans hshow, ⟨⟨hend.text, hend.len, hend.offs⟩, ?_, ?_⟩,
    Option.some_ne_none blk⟩
  · rw [List.count_append, List.count_singleton, if_neg (by simpa using hne)]
    exact h.lines
  · rw [lastLine_concat hne, List.length_append, List.length_singleton]
    have hcol := h.col
    change e.curCursorCol + (1 : ℕ) = e.frlPromptLen + 2 + ((lastLine txt).length + 1 : ℕ)
    push_cast
    omega

theorem Appended.enter (h : Appended e txt) (fill : Editor → ℕ → Byte) (hinput : e.curFrlInput ≠ none) :
    ∃ e', press fill e .enter = some e' ∧
      Appended e' (txt ++ 10 :: List.replicate (indentOf txt) 32) := by
  obtain ⟨e', hstep, hend, hlines, hcol, hprompt⟩ := h.atEnd.enter fill hinput
  refine ⟨e', hstep, hend, ?_, ?_⟩
  · rw [hlines, h.lines, List.count_append, List.count_cons_self, List.count_replicate,
      if_neg (by decide)]
  · rw [hcol, hprompt, lastLine_newLine, List.length_replicate]

theorem Appended.backspace (h : Appended e txt) (fill : Editor → ℕ → Byte) (hb : InBounds e) :
    ∃ e', press fill e .backspace = some e' ∧ Appended e' (appendText txt .backspace) ∧
      (e.curFrlInput ≠ none → e'.curFrlInput ≠ none) := by
  have hcol := h.col
  unfold appendText
  split_ifs with hline
  · rw [hline] at hcol
    exact ⟨e, if_pos hcol.le, h, id⟩
  · obtain ⟨init, c, rfl, hc⟩ := exists_concat_of_lastLine hline
    rw [lastLine_concat hc, List.length_append, List.length_singleton] at hcol
    push_cast at hcol
    obtain ⟨txt, blk, i, shown, out, htxt, hlen, hoffs, hlt, hcut, hstep⟩ :=
      backspace_eq hb h.atEnd.sound (by omega)
    obtain rfl := Option.some.inj (htxt.symm.trans h.atEnd.text)
    have hend := h.atEnd.offs
    rw [List.length_append, List.length_singleton] at hlen
    obtain rfl : i = init.length := by omega
    rw [List.take_left] at hcut
    refine ⟨_, hstep, ⟨⟨?_, ?_, ?_⟩, ?_, ?_⟩, fun _ => Option.some_ne_none blk⟩
    · rw [List.dropLast_concat]
      exact hcut
    · rw [List.dropLast_concat]
      change init.length = e.curFrlInputLen - 1
      omega
    · change (init.length : ℤ) = ((e.curFrlInputLen - 1 : ℕ) : ℤ)
      omega
    · rw [List.dropLast_concat]
      have hlines := h.lines
      rwa [List.count_append, List.count_singleton, if_neg (by simpa using hc)] at hlines
    · rw [List.dropLast_concat]
      change e.curCursorCol - 1 = e.frlPromptLen + 2 + ((lastLine init).length : ℤ)
      omega

theorem Appended.right (h : Appended e txt) : press fill e .right = some e :=
  if_pos h.atEnd.offs

theorem Appended.press (h : Appended e txt) (fill : Editor → ℕ → Byte) (hb : InBounds e) {key : Key}
    (hkey : AppendKey e key) :
    ∃ e', press fill e key = some e' ∧ Appended e' (appendText txt key) ∧
      ((e.curFrlInput ≠ none ∨ ∃ c, key = .char c) → e'.curFrlInput ≠ none) := by
  cases key with
  | char c =>
    obtain ⟨e', hstep, h', hinput⟩ := h.char fill c
    exact ⟨e', hstep, h', fun _ => hinput⟩
  | enter =>
    obtain ⟨e', hstep, h'⟩ := h.enter fill (hkey.2 rfl)
    refine ⟨e', hstep, h', fun _ hnull => ?_⟩
    have hlen := h'.atEnd.text
    rw [Editor.text, hnull] at hlen
    exact List.append_ne_nil_of_right_ne_nil txt (List.cons_ne_nil _ _) (Option.some.inj hlen).symm
  | backspace =>
    obtain ⟨e', hstep, h', hinput⟩ := h.backspace fill hb
    refine ⟨e', hstep, h', ?_⟩
    rintro (hsome | ⟨c, hc⟩)
    · exact hinput hsome
    · cases hc
  | left => exact absurd rfl hkey.1
  | right =>
    refine ⟨e, h.right, h, ?_⟩
    rintro (hsome | ⟨c, hc⟩)
    · exact hsome
    · cases hc

theorem Appended.run {keys : List Key} (h : Appended e txt) (hb : InBounds e)
    (hkeys : Meets (FancyReadline.press fill) AppendKey e keys) :
    ∃ e', Iteration.run (FancyReadline.press fill) e keys = some e' ∧
      Appended e' (keys.foldl appendText txt) ∧
      ((e.curFrlInput ≠ none ∨ ∃ c, .char c ∈ keys) → e'.curFrlInput ≠ none) := by
  induction keys generalizing e txt with
  | nil =>
    refine ⟨e, rfl, h, ?_⟩
    rintro (hsome | ⟨c, hc⟩)
    · exact hsome
    · cases hc
  | cons key keys ih =>
    obtain ⟨e₁, hstep, h₁, hinput⟩ := h.press fill hb hkeys.1
    obtain ⟨e', hrun, h', hinput'⟩ := ih h₁ (hb.press hstep) (hkeys.2 e₁ hstep)
    refine ⟨e', by rw [Iteration.run, hstep, Option.bind_some, hrun], h', fun hor => hinput' ?_⟩
    rcases hor with hsome | ⟨c, hc⟩
    · exact Or.inl (hinput (Or.inl hsome))
    · rcases List.mem_cons.1 hc with rfl | hc
      · exact Or.inl (hinput (Or.inr ⟨c, rfl⟩))
      · exact Or.inr ⟨c, hc⟩

end Append

/-- Whatever is typed without moving left, the text is what the keys append and delete at its end, the
counters are those of the text, and from the first character on the input is there. -/
theorem append_only_counts {fill : Editor → ℕ → Byte} {prompt : List Byte} {keys : List Key}
    (hkeys : Meets (press fill) AppendKey (startFancyReadline prompt) keys) :
    ∃ e, run (press fill) (startFancyReadline prompt) keys = some e ∧
      Appended e (keys.foldl appendText []) ∧ ((∃ c, .char c ∈ keys) → e.curFrlInput ≠ none) := by
  obtain ⟨e, hrun, h, hinput⟩ := (appended_start prompt).run (inBounds_start prompt) hkeys
  exact ⟨e, hrun, h, fun hc => hinput (Or.inr hc)⟩

/-- A blank, `a`, `ENTER` and `BACKSPACE`: the indentation goes again. -/
theorem append_only_counts_indent :
    ∃ e, run (press fun _ _ => 0) (startFancyReadline [63])
        [.char ⟨32, by decide⟩, .char ⟨97, by decide⟩, .enter, .backspace] = some e ∧
      Appended e ([.char ⟨32, by decide⟩, .char ⟨97, by decide⟩, .enter, .backspace].foldl appendText []) ∧
      ((∃ c, .char c ∈ [Key.char ⟨32, by decide⟩, .char ⟨97, by decide⟩, .enter, .backspace]) →
        e.curFrlInput ≠ none) := by
  apply append_only_counts
  refine ⟨⟨nofun, nofun⟩, fun e₁ hs₁ => ⟨⟨nofun, nofun⟩, fun e₂ hs₂ => ?_⟩⟩
  obtain rfl := Option.some.inj hs₁
  obtain rfl := Option.some.inj hs₂
  exact ⟨⟨nofun, fun _ => Option.some_ne_none _⟩, fun _ _ => ⟨⟨nofun, nofun⟩, fun _ _ => trivial⟩⟩

end MutantC.FancyReadline
