import MutantC.Lib.LineBuffer
import MutantC.FancyReadline.ReadlineSafety

/-! One-line editing against a line with a cursor: the two agree as long as the text is changed at its
end only, and part at the first change in the middle. -/

namespace MutantC.FancyReadline
open CBuffer Iteration LineBuffer

inductive LineKey
  | char (c : Printable)
  | backspace
  | left
  | right
deriving DecidableEq

def LineKey.key : LineKey → Key
  | .char c => .char c
  | .backspace => .backspace
  | .left => .left
  | .right => .right

def LineKey.apply (l : Line Byte) : LineKey → Line Byte
  | .char c => LineBuffer.insert l c.val
  | .backspace => LineBuffer.backspace l
  | .left => LineBuffer.left l
  | .right => LineBuffer.right l

structure Paired where
  editor : Editor
  line : Line Byte

def pairedStep (fill : Editor → ℕ → Byte) (s : Paired) (k : LineKey) : Option Paired :=
  (press fill s.editor k.key).map fun e => ⟨e, k.apply s.line⟩

def pairedStart (prompt : List Byte) : Paired := ⟨startFancyReadline prompt, LineBuffer.empty⟩

structure Agrees (s : Paired) : Prop where
  text : s.editor.text = some s.line.text
  cursor : s.editor.curCursorOffs = s.line.cursor

/-- A change of the text is made at its end, or is none. -/
def EditsAtEnd (s : Paired) : LineKey → Prop
  | .char _ => s.editor.curCursorOffs = s.editor.curFrlInputLen
  | .backspace => s.editor.curCursorOffs = s.editor.curFrlInputLen ∨ s.editor.curCursorOffs = 0
  | .left => True
  | .right => True

structure OneLine (e : Editor) : Prop where
  inBounds : InBounds e
  sound : Sound e
  col : e.curCursorCol = e.frlPromptLen + 2 + e.curCursorOffs

theorem oneLine_start (prompt : List Byte) : OneLine (startFancyReadline prompt) :=
  ⟨inBounds_start prompt, sound_start prompt, (add_zero _).symm⟩

theorem agrees_start (prompt : List Byte) : Agrees (pairedStart prompt) := ⟨rfl, rfl⟩

section Step
variable {fill : Editor → ℕ → Byte} {e e' : Editor} {l : Line Byte}

theorem OneLine.len_eq (h : OneLine e) (ha : Agrees ⟨e, l⟩) : l.text.length = e.curFrlInputLen := by
  obtain ⟨txt, htxt, hlen⟩ := exists_text h.inBounds h.sound
  rwa [Option.some.inj (ha.text.symm.trans htxt)]

theorem press_col {k : LineKey} (h : press fill e k.key = some e') :
    e'.frlPromptLen = e.frlPromptLen ∧
      e'.curCursorCol - e'.curCursorOffs = e.curCursorCol - e.curCursorOffs := by
  cases k with
  | char c =>
    obtain ⟨e₁, hadd, hshow⟩ := Option.bind_eq_some_iff.1 h
    obtain ⟨input, rfl, -⟩ := addchar_some hadd
    obtain ⟨shown, out, rfl⟩ := redisplay_some hshow
    exact ⟨rfl, by simp [Editor.advance]⟩
  | backspace =>
    change fancyReadlineBackspace e = some e' at h
    unfold fancyReadlineBackspace at h
    split_ifs at h with hcol hlen
    · obtain rfl := Option.some.inj h
      exact ⟨rfl, rfl⟩
    · obtain rfl := Option.some.inj h
      exact ⟨rfl, rfl⟩
    · simp only [Option.bind_eq_bind] at h
      obtain ⟨blk, -, h⟩ := Option.bind_eq_some_iff.1 h
      obtain ⟨-, -, h⟩ := Option.bind_eq_some_iff.1 h
      obtain ⟨blk', -, h⟩ := Option.bind_eq_some_iff.1 h
      obtain ⟨shown, out, rfl⟩ := redisplay_some h
      exact ⟨rfl, sub_sub_sub_cancel_right _ _ _⟩
  | left =>
    change fancyReadlineMoveleft e = some e' at h
    unfold fancyReadlineMoveleft at h
    split_ifs at h with hcol
    · obtain rfl := Option.some.inj h
      exact ⟨rfl, rfl⟩
    · obtain ⟨shown, out, rfl⟩ := redisplay_some h
      exact ⟨rfl, sub_sub_sub_cancel_right _ _ _⟩
  | right =>
    change fancyReadlineMoveright e = some e' at h
    unfold fancyReadlineMoveright at h
    split_ifs at h with hend
    · obtain rfl := Option.some.inj h
      exact ⟨rfl, rfl⟩
    · obtain ⟨shown, out, rfl⟩ := redisplay_some h
      exact ⟨rfl, add_sub_add_right_eq_sub _ _ _⟩

theorem OneLine.press (h : OneLine e) {k : LineKey} (hstep : press fill e k.key = some e')
    (hs : Sound e') : OneLine e' := by
  obtain ⟨hprompt, hdiff⟩ := press_col hstep
  refine ⟨h.inBounds.press hstep, hs, ?_⟩
  have hcol := h.col
  rw [hprompt]
  omega

theorem exists_pairedStep {s : Paired} {k : LineKey} :
    (∃ s', pairedStep fill s k = some s' ∧ Agrees s') ↔
      ∃ e', press fill s.editor k.key = some e' ∧ Agrees ⟨e', k.apply s.line⟩ := by
  constructor
  · rintro ⟨s', hstep, ha⟩
    obtain ⟨e', hpress, rfl⟩ := Option.map_eq_some_iff.1 hstep
    exact ⟨e', hpress, ha⟩
  · rintro ⟨e', hpress, ha⟩
    exact ⟨_, by rw [pairedStep, hpress, Option.map_some], ha⟩

theorem char_agrees_iff (h : OneLine e) (ha : Agrees ⟨e, l⟩) (c : Printable) :
    (∃ e', press fill e (.char c) = some e' ∧ Agrees ⟨e', insert l c.val⟩) ↔
      e.curCursorOffs = e.curFrlInputLen := by
  have hlen := h.len_eq ha
  constructor
  · rintro ⟨e', hstep, ha'⟩
    by_contra hmid
    obtain ⟨e₁, hadd, hshow⟩ := Option.bind_eq_some_iff.1 hstep
    rw [addchar_mid hmid] at hadd
    obtain rfl := Option.some.inj hadd
    obtain ⟨shown, out, rfl⟩ := redisplay_some hshow
    -- the line has one character more, the input is the old one
    have htxt := ha.text.symm.trans ha'.text
    have hlen' : l.text.length = (insert l c.val).text.length :=
      congrArg List.length (Option.some.inj htxt)
    rw [length_insert] at hlen'
    omega
  · intro hoffs
    have hend : AtEnd e l.text := ⟨ha.text, hlen, hoffs⟩
    obtain ⟨blk, hadd, hend'⟩ := hend.addchar fill c.ne_zero
    obtain ⟨shown, out, hshow⟩ := exists_redisplay
      (fun hn => absurd hn (Option.some_ne_none blk)) hend'.text
    refine ⟨_, (congrArg (Option.bind · _) hadd).trans hshow, ?_, ?_⟩
    · have hcursor : l.cursor = l.text.length := by
        have hc : e.curCursorOffs = l.cursor := ha.cursor
        omega
      exact hend'.text.trans (congrArg some (insert_text_end hcursor c.val).symm)
    · exact congrArg (· + (1 : ℤ)) ha.cursor

theorem backspace_agrees_iff (h : OneLine e) (ha : Agrees ⟨e, l⟩) :
    (∃ e', fancyReadlineBackspace e = some e' ∧ Agrees ⟨e', backspace l⟩) ↔
      e.curCursorOffs = e.curFrlInputLen ∨ e.curCursorOffs = 0 := by
  have hcursor : e.curCursorOffs = l.cursor := ha.cursor
  have hcol := h.col
  have hlen := h.len_eq ha
  rcases Nat.eq_zero_or_pos l.cursor with hzero | hpos
  · have hstay : fancyReadlineBackspace e = some e := if_pos (by omega)
    refine iff_of_true ⟨e, hstay, ?_⟩ (Or.inr (by omega))
    rwa [backspace_start hzero]
  · obtain ⟨txt, blk, i, shown, out, htxt, -, hoffs, -, hcut, hstep⟩ :=
      backspace_eq h.inBounds h.sound (by omega)
    obtain rfl : txt = l.text := Option.some.inj (htxt.symm.trans ha.text)
    obtain rfl : i = l.cursor - 1 := by omega
    have hsame : l.cursor = l.text.length ↔
        e.curCursorOffs = e.curFrlInputLen ∨ e.curCursorOffs = 0 := by omega
    rw [← hsame, ← backspace_text_eq_take_iff hpos]
    constructor
    · rintro ⟨e', hstep', ha'⟩
      obtain rfl := Option.some.inj (hstep.symm.trans hstep')
      exact Option.some.inj (hcut.symm.trans ha'.text)
    · intro htake
      refine ⟨_, hstep, hcut.trans (congrArg some htake), ?_⟩
      change ((l.cursor - 1 : ℕ) : ℤ) = ((backspace l).cursor : ℤ)
      rw [backspace_cursor hpos]

theorem moveleft_agrees (h : OneLine e) (ha : Agrees ⟨e, l⟩) :
    ∃ e', fancyReadlineMoveleft e = some e' ∧ Agrees ⟨e', left l⟩ := by
  have hcursor : e.curCursorOffs = l.cursor := ha.cursor
  have hcol := h.col
  unfold fancyReadlineMoveleft
  split_ifs with hfirst
  · refine ⟨e, rfl, ha.text, ?_⟩
    change e.curCursorOffs = ((l.cursor - 1 : ℕ) : ℤ)
    omega
  · obtain ⟨shown, out, hshow⟩ := exists_redisplay (e := Editor.printf { e with
      curCursorOffs := e.curCursorOffs - 1
      curCursorCol := e.curCursorCol - 1 } [8]) h.inBounds.empty ha.text
    refine ⟨_, hshow, ha.text, ?_⟩
    change e.curCursorOffs - 1 = ((l.cursor - 1 : ℕ) : ℤ)
    omega

theorem moveright_agrees (h : OneLine e) (ha : Agrees ⟨e, l⟩) :
    ∃ e', fancyReadlineMoveright e = some e' ∧ Agrees ⟨e', right l⟩ := by
  have hcursor : e.curCursorOffs = l.cursor := ha.cursor
  have hlen := h.len_eq ha
  have hle := l.cursor_le
  unfold fancyReadlineMoveright
  split_ifs with hend
  · refine ⟨e, rfl, ha.text, ?_⟩
    change e.curCursorOffs = ((right l).cursor : ℤ)
    rw [right_end (by omega)]
    omega
  · obtain ⟨shown, out, hshow⟩ := exists_redisplay (e := Editor.printf { e with
      curCursorOffs := e.curCursorOffs + 1
      curCursorCol := e.curCursorCol + 1 } [27, 91, 49, 67]) h.inBounds.empty ha.text
    refine ⟨_, hshow, ha.text, ?_⟩
    change e.curCursorOffs + 1 = ((right l).cursor : ℤ)
    rw [right_inside (by omega), Nat.cast_succ, ← hcursor]

theorem pairedStep_agrees_iff (h : OneLine e) (ha : Agrees ⟨e, l⟩) (k : LineKey) :
    (∃ s', pairedStep fill ⟨e, l⟩ k = some s' ∧ Agrees s') ↔ EditsAtEnd ⟨e, l⟩ k := by
  rw [exists_pairedStep]
  cases k with
  | char c => exact char_agrees_iff h ha c
  | backspace => exact backspace_agrees_iff h ha
  | left => exact iff_of_true (moveleft_agrees h ha) trivial
  | right => exact iff_of_true (moveright_agrees h ha) trivial

theorem OneLine.pairedStep {s s' : Paired} {k : LineKey} (h : OneLine s.editor) (ha : Agrees s)
    (hstep : pairedStep fill s k = some s') (ha' : Agrees s') : OneLine s'.editor := by
  have hedits := (pairedStep_agrees_iff h ha k).1 ⟨s', hstep, ha'⟩
  obtain ⟨e', hpress, rfl⟩ := Option.map_eq_some_iff.1 hstep
  have hsafe : KeySafe s.editor k.key := by
    have hcol := h.col
    cases k with
    | char c => exact hedits
    | backspace =>
      have hend : s.editor.curCursorOffs = s.editor.curFrlInputLen ∨ s.editor.curCursorOffs = 0 :=
        hedits
      exact hend.imp_right fun hzero => by omega
    | left => trivial
    | right => trivial
  obtain ⟨e₁, hpress₁, hs⟩ := (press_safe_iff h.inBounds h.sound k.key).2 hsafe
  obtain rfl := Option.some.inj (hpress.symm.trans hpress₁)
  exact h.press hpress hs

end Step

/-- The editor's text and cursor are those of the line after every key of a run, exactly when every
character is typed at the end and every deletion happens at the end or at position zero. -/
theorem line_editor_iff (fill : Editor → ℕ → Byte) (prompt : List Byte) (keys : List LineKey) :
    Along (pairedStep fill) Agrees (pairedStart prompt) keys ↔
      Meets (pairedStep fill) EditsAtEnd (pairedStart prompt) keys :=
  along_iff_meets (I := fun s => OneLine s.editor) (fun _ k h ha => pairedStep_agrees_iff h ha k)
    (fun _ _ _ h ha hstep ha' => h.pairedStep ha hstep ha') (oneLine_start prompt)
    (agrees_start prompt) keys

/-- A character typed before another one is lost, and one deleted there takes the rest along. -/
theorem middle_edits_diverge :
    ¬ Along (pairedStep fun _ _ => 0) Agrees (pairedStart [63])
        [.char ⟨97, by decide⟩, .char ⟨98, by decide⟩, .left, .char ⟨99, by decide⟩] ∧
      ¬ Along (pairedStep fun _ _ => 0) Agrees (pairedStart [63])
        [.char ⟨97, by decide⟩, .char ⟨98, by decide⟩, .left, .backspace] := by
  constructor
  · intro h
    obtain ⟨s, hrun, ha⟩ := h.run
    have htexts : some (some [97, 98], [97, 99, 98]) = some (s.editor.text, s.line.text) :=
      congrArg (Option.map fun s : Paired => (s.editor.text, s.line.text)) hrun
    rw [ha.text] at htexts
    obtain ⟨htxt, hline⟩ := Prod.mk.inj (Option.some.inj htexts)
    rw [← hline] at htxt
    exact absurd htxt (by decide)
  · intro h
    obtain ⟨s, hrun, ha⟩ := h.run
    have htexts : some (some [], [98]) = some (s.editor.text, s.line.text) :=
      congrArg (Option.map fun s : Paired => (s.editor.text, s.line.text)) hrun
    rw [ha.text] at htexts
    obtain ⟨htxt, hline⟩ := Prod.mk.inj (Option.some.inj htexts)
    rw [← hline] at htxt
    exact absurd htxt (by decide)

end MutantC.FancyReadline
