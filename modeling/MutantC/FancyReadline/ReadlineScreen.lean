import MutantC.FancyReadline.ReadlineCounters
import MutantC.Lib.AnsiScreen

/-! What the editor puts on the screen: where its text is drawn, and exactly when a redisplay leaves the
screen showing the text. -/

namespace MutantC.FancyReadline
open AnsiScreen CBuffer Decimal

def firstLine (txt : List Byte) : List Byte := txt.takeWhile (· ≠ 10)

def furtherLines : List Byte → List (List Byte)
  | [] => []
  | c :: txt => if c = 10 then firstLine txt :: furtherLines txt else furtherLines txt

/-- From row `top` down the terminal shows the prompt with the first line, then a row for each further
line behind a prefix of the prompt's width, and nothing else; the cursor is on the last of them. -/
structure Shown (top : ℕ) (prompt : List Byte) (promptLen : ℕ) (txt : List Byte) (t : Terminal) :
    Prop where
  first : Reads (t.cell top) (prompt ++ [62, 32] ++ firstLine txt)
  further : ∀ k line, (furtherLines txt)[k]? = some line →
    ∃ pre, pre.length = promptLen + 2 ∧ Reads (t.cell (top + 1 + k)) (pre ++ line)
  below : ∀ k, top + (furtherLines txt).length < k → Reads (t.cell k) []
  row : t.row = top + (furtherLines txt).length

def screen (top : ℕ) (cell : ℕ → ℕ → Byte) (e : Editor) : Terminal :=
  Terminal.feed ⟨cell, top, 0, .ground⟩ e.stdout

def Shows (top : ℕ) (cell : ℕ → ℕ → Byte) (e : Editor) : Prop :=
  ∃ txt, e.text = some txt ∧ Shown top e.frlPrompt e.frlPromptLen txt (screen top cell e) ∧
    ((screen top cell e).col : ℤ) = e.curCursorCol

/-! ### Drawing a text -/

def contPrefix (promptLen : ℕ) : List Byte :=
  List.replicate ((promptLen : ℤ) - 3).natAbs 32 ++ [32, 46, 46, 46, 32]

structure Drawn (promptLen : ℕ) (txt : List Byte) (t t' : Terminal) : Prop where
  mode : t'.mode = .ground
  row : t'.row = t.row + (furtherLines txt).length
  first : t'.cell t.row = overlay (t.cell t.row) t.col (firstLine txt)
  further : ∀ k line, (furtherLines txt)[k]? = some line →
    Reads (t'.cell (t.row + 1 + k)) (contPrefix promptLen ++ line)
  other : ∀ k, k < t.row ∨ t.row + (furtherLines txt).length < k → t'.cell k = t.cell k

section Draw
variable {t t' : Terminal} {promptLen : ℕ} {txt : List Byte}

theorem isPrintable_contPrefix (promptLen : ℕ) : ∀ b ∈ contPrefix promptLen, IsPrintable b := by
  have hdots : ∀ b ∈ ([32, 46, 46, 46, 32] : List Byte), IsPrintable b := by
    simp only [List.forall_mem_cons]
    exact ⟨by decide, by decide, by decide, by decide, by decide, by simp⟩
  intro b hb
  rcases List.mem_append.1 hb with hb | hb
  · rw [List.eq_of_mem_replicate hb]
    decide
  · exact hdots b hb

def nextRow (t : Terminal) : Terminal :=
  { t with
    cell := fun k => if k = t.row + 1 then fun _ => blank else t.cell k
    row := t.row + 1
    col := 0 }

theorem eraseLine_start (t : Terminal) :
    Terminal.eraseLine { t with row := t.row + 1, col := 0 } = nextRow t := by
  refine Terminal.ext ?_ rfl rfl rfl
  funext k
  change (if k = t.row + 1 then _ else t.cell k) = if k = t.row + 1 then _ else t.cell k
  congr 1

theorem feed_newline (h : t.mode = .ground) (promptLen : ℕ) :
    t.feed (displayByte promptLen 10) = (nextRow t).put (contPrefix promptLen) := by
  have hreturn : Terminal.step { t with row := t.row + 1 } 13 = { t with row := t.row + 1, col := 0 } :=
    Terminal.step_return (t := { t with row := t.row + 1 }) h
  have herase : Terminal.feed { t with row := t.row + 1, col := 0 } [27, 91, 48, 75] = nextRow t :=
    (Terminal.feed_csi (t := { t with row := t.row + 1, col := 0 }) h 0
      (show ¬ IsDigit 75 by decide)).trans (Terminal.csi_erase.trans (eraseLine_start t))
  have hprefix : (nextRow t).feed (contPrefix promptLen) = (nextRow t).put (contPrefix promptLen) :=
    Terminal.feed_text (t := nextRow t) h (isPrintable_contPrefix promptLen)
  have hbytes : displayByte promptLen 10 = 10 :: 13 :: ([27, 91, 48, 75] ++ contPrefix promptLen) := by
    simp [displayByte, contPrefix]
  rw [hbytes, Terminal.feed_cons, Terminal.step_lineFeed h, Terminal.feed_cons, hreturn,
    Terminal.feed_append, herase, hprefix]

def IsShowable (c : Byte) : Prop := c = 10 ∨ IsPrintable c

theorem Drawn.char {c : Byte} (h : Drawn promptLen txt (t.put [c]) t') (hc : c ≠ 10) :
    Drawn promptLen (c :: txt) t t' := by
  have hfurther : furtherLines (c :: txt) = furtherLines txt := if_neg hc
  have hfirst : firstLine (c :: txt) = c :: firstLine txt :=
    List.takeWhile_cons_of_pos (decide_eq_true hc)
  refine ⟨h.mode, hfurther ▸ h.row, ?_, hfurther ▸ h.further, fun k hk => ?_⟩
  · rw [hfirst, ← overlay_cons, ← Terminal.put_cell_self]
    exact h.first
  · rw [hfurther] at hk
    rw [h.other k hk, Terminal.put_cell_of_ne]
    omega

theorem Drawn.newline (h : Drawn promptLen txt ((nextRow t).put (contPrefix promptLen)) t') :
    Drawn promptLen (10 :: txt) t t' := by
  have hfurther : furtherLines (10 :: txt) = firstLine txt :: furtherLines txt := rfl
  have hkeep : ∀ k, k ≠ t.row + 1 → ((nextRow t).put (contPrefix promptLen)).cell k = t.cell k :=
    fun k hk => (Terminal.put_cell_of_ne _ hk).trans (if_neg hk)
  refine ⟨h.mode, ?_, ?_, ?_, fun k hk => ?_⟩
  · rw [h.row, hfurther, List.length_cons]
    change t.row + 1 + _ = _
    omega
  · rw [show firstLine (10 :: txt) = [] from rfl, overlay_nil,
      h.other t.row (Or.inl (Nat.lt_succ_self _)), hkeep _ (Nat.succ_ne_self _).symm]
  · rw [hfurther]
    intro k line hline
    cases k with
    | zero =>
      obtain rfl := Option.some.inj hline
      have hstart : Reads (((nextRow t).put (contPrefix promptLen)).cell (nextRow t).row)
          (contPrefix promptLen) := by
        rw [Terminal.put_cell_self, show (nextRow t).cell (nextRow t).row = fun _ => blank from
          if_pos rfl]
        exact reads_overlay_blank _
      have hread : Reads (overlay _ (contPrefix promptLen).length (firstLine txt))
        (contPrefix promptLen ++ firstLine txt) := hstart.append
      rw [← Nat.zero_add (contPrefix promptLen).length] at hread
      exact h.first ▸ hread
    | succ k =>
      have hread := h.further k line hline
      rwa [Terminal.put_row, show (nextRow t).row = t.row + 1 from rfl,
        show t.row + 1 + 1 + k = t.row + 1 + (k + 1) by omega] at hread
  · rw [hfurther, List.length_cons] at hk
    rw [h.other k (by change k < t.row + 1 ∨ t.row + 1 + _ < k; omega), hkeep k (by omega)]

theorem drawn_feed (h : t.mode = .ground) (promptLen : ℕ) (htxt : ∀ c ∈ txt, IsShowable c) :
    Drawn promptLen txt t (t.feed (txt.flatMap (displayByte promptLen))) := by
  induction txt generalizing t with
  | nil => exact ⟨h, rfl, overlay_nil.symm, by simp [furtherLines], fun _ _ => rfl⟩
  | cons c txt ih =>
    obtain ⟨hc, htxt⟩ := List.forall_mem_cons.1 htxt
    rw [List.flatMap_cons, Terminal.feed_append]
    by_cases hnewline : c = 10
    · rw [hnewline, feed_newline h]
      apply Drawn.newline
      exact ih h htxt
    · have hbytes : t.feed (displayByte promptLen c) = t.put [c] := by
        rw [displayByte, if_neg hnewline]
        exact Terminal.step_printable h (hc.resolve_left hnewline)
      rw [hbytes]
      exact Drawn.char (ih h htxt) hnewline

structure AtPrompt (prompt : List Byte) (t : Terminal) : Prop where
  mode : t.mode = .ground
  col : t.col = prompt.length + 2
  cells : ∀ j < prompt.length + 2, t.cell t.row j = (prompt ++ [62, 32]).getD j blank

theorem length_promptText (prompt : List Byte) : (prompt ++ [62, 32]).length = prompt.length + 2 := by
  rw [List.length_append]
  rfl

theorem exists_dot (h : promptLen < 3) :
    ∃ j, promptLen + 2 ≤ j ∧ j < (contPrefix promptLen).length ∧
      promptLen + 2 < (contPrefix promptLen).length ∧ (contPrefix promptLen).getD j blank ≠ blank := by
  interval_cases promptLen
  · exact ⟨4, by decide, by decide, by decide, by decide⟩
  · exact ⟨3, by decide, by decide, by decide, by decide⟩
  · exact ⟨4, by decide, by decide, by decide, by decide⟩

theorem length_contPrefix (h : 3 ≤ promptLen) : (contPrefix promptLen).length = promptLen + 2 := by
  have habs : ((promptLen : ℤ) - 3).natAbs = promptLen - 3 := by omega
  rw [contPrefix, List.length_append, List.length_replicate, habs]
  change promptLen - 3 + 5 = _
  omega

/-- Exactly when a text drawn behind the prompt is shown: drawn on the right row, over nothing that
stays, and with a prompt as wide as the continuation prefix where there are further lines. -/
theorem shown_drawn_iff {top : ℕ} {prompt : List Byte} (ha : AtPrompt prompt t)
    (hd : Drawn prompt.length txt t t') :
    Shown top prompt prompt.length txt t' ↔
      t.row = top ∧ (furtherLines txt ≠ [] → 3 ≤ prompt.length) ∧
      (∀ j, prompt.length + 2 + (firstLine txt).length ≤ j → t.cell top j = blank) ∧
      ∀ k, top + (furtherLines txt).length < k → Reads (t.cell k) [] := by
  have hfirst : Reads (t'.cell t.row) (prompt ++ [62, 32] ++ firstLine txt) ↔
      ∀ j, prompt.length + 2 + (firstLine txt).length ≤ j → t.cell t.row j = blank := by
    rw [hd.first, ha.col, ← length_promptText]
    exact reads_overlay_iff fun j hj => ha.cells j (by rwa [length_promptText] at hj)
  constructor
  · intro hs
    obtain rfl : t.row = top := Nat.add_right_cancel (hd.row.symm.trans hs.row)
    refine ⟨rfl, fun hne => ?_, hfirst.1 hs.first, fun k hk => ?_⟩
    · by_contra hshort
      obtain ⟨line, lines, hlines⟩ := List.exists_cons_of_ne_nil hne
      have hline : (furtherLines txt)[0]? = some line := by rw [hlines]; rfl
      obtain ⟨j, hle, hlt, hwide, hdot⟩ := exists_dot (not_le.1 hshort)
      obtain ⟨pre, hpre, hread⟩ := hs.further 0 line hline
      have hdrawn := hd.further 0 line hline
      have hblank := reads_shift hdrawn hread (by omega) (hpre ▸ hle)
      rw [hdrawn j, List.getD_append _ _ _ _ hlt] at hblank
      exact hdot hblank
    · rw [← hd.other k (Or.inr hk)]
      exact hs.below k hk
  · rintro ⟨rfl, hwide, hclear, hbelow⟩
    refine ⟨hfirst.2 hclear, fun k line hline => ?_, fun k hk => ?_, hd.row⟩
    · have hne : furtherLines txt ≠ [] := by
        intro hnil
        rw [hnil] at hline
        exact absurd hline (Option.some_ne_none line).symm
      exact ⟨_, length_contPrefix (hwide hne), hd.further k line hline⟩
    · rw [hd.other k (Or.inr hk)]
      exact hbelow k hk

end Draw

/-! ### A redisplay -/

section Redisplay
variable {top : ℕ} {cell : ℕ → ℕ → Byte} {e e' : Editor} {t : Terminal} {txt : List Byte}

structure Ready (e : Editor) (txt : List Byte) : Prop where
  promptLen : e.frlPromptLen = e.frlPrompt.length
  prompt : ∀ b ∈ e.frlPrompt, IsPrintable b
  text : e.text = some txt
  showable : ∀ c ∈ txt, IsShowable c
  input : e.curFrlInput = none → e.curFrlInputLen = 0
  col_ge : (e.frlPromptLen : ℤ) + 2 ≤ e.curCursorCol
  empty : e.curFrlInputLen = 0 → txt = [] ∧ e.curCursorCol = e.frlPromptLen + 2

theorem screen_printf (bs : List Byte) : screen top cell (e.printf bs) = (screen top cell e).feed bs :=
  Terminal.feed_append _ _ _

theorem isPrintable_promptText (h : ∀ b ∈ e.frlPrompt, IsPrintable b) :
    ∀ b ∈ promptText e, IsPrintable b := by
  intro b hb
  rcases List.mem_append.1 hb with hb | hb
  · exact h b hb
  · have harrow : ∀ b ∈ ([62, 32] : List Byte), IsPrintable b := by
      simp only [List.forall_mem_cons]
      exact ⟨by decide, by decide, by simp⟩
    exact harrow b hb

theorem atPrompt_put {prompt : List Byte} (h : t.mode = .ground) (hcol : t.col = 0) :
    AtPrompt prompt (t.put (prompt ++ [62, 32])) := by
  refine ⟨h, ?_, fun j hj => ?_⟩
  · rw [Terminal.put_col, hcol, length_promptText, Nat.zero_add]
  · rw [← length_promptText] at hj
    have hinside := overlay_inside (r := t.cell t.row) (c := 0) hj blank
    rw [Terminal.put_row, Terminal.put_cell_self, hcol]
    rwa [Nat.zero_add] at hinside

theorem feed_promptRedraw (h : t.mode = .ground) (hprompt : ∀ b ∈ e.frlPrompt, IsPrintable b)
    (hdone : e.doneDisplay = true) :
    t.feed (promptRedraw e) =
      Terminal.put { t with row := t.row - e.curFrlInputLines, col := 0 } (promptText e) := by
  have hup : t.feed ([13] ++ (if 0 < e.curFrlInputLines then
      [27, 91] ++ decimal e.curFrlInputLines ++ [65, 13] else [])) =
      { t with row := t.row - e.curFrlInputLines, col := 0 } := by
    rw [List.singleton_append, Terminal.feed_cons, Terminal.step_return h]
    split_ifs with hlines
    · have hcsi : Terminal.feed { t with col := 0 } ([27, 91] ++ decimal e.curFrlInputLines ++ [65]) =
          { t with row := t.row - e.curFrlInputLines, col := 0 } :=
        (Terminal.feed_csi (t := { t with col := 0 }) h _ (show ¬ IsDigit 65 by decide)).trans
          (Terminal.csi_up _ hlines)
      rw [show ([65, 13] : List Byte) = [65] ++ [13] from rfl, ← List.append_assoc,
        Terminal.feed_append, hcsi]
      exact Terminal.step_return (t := { t with row := t.row - e.curFrlInputLines, col := 0 }) h
    · rw [Nat.eq_zero_of_not_pos hlines]
      rfl
  rw [promptRedraw, if_pos hdone, Terminal.feed_append, hup]
  exact Terminal.feed_text (t := { t with row := t.row - e.curFrlInputLines, col := 0 }) h
    (isPrintable_promptText hprompt)

theorem feed_cursorMove (h : t.mode = .ground) (hcol : (e.frlPromptLen : ℤ) + 2 ≤ e.curCursorCol) :
    t.feed (cursorMove e) = { t with col := e.curCursorCol.toNat } := by
  have hpos : 0 < e.curCursorCol.toNat := by omega
  have hdec : signedDecimal e.curCursorCol = decimal e.curCursorCol.toNat := by
    rw [signedDecimal, if_neg (by omega)]
    congr 1
    omega
  rw [cursorMove, if_pos hcol, hdec, List.append_assoc, List.cons_append, Terminal.feed_cons,
    Terminal.step_return h, ← List.append_assoc]
  refine (Terminal.feed_csi (t := { t with col := 0 }) h _ (show ¬ IsDigit 67 by decide)).trans ?_
  rw [Terminal.csi_forward _ hpos, Nat.zero_add]

theorem redisplay_nothing (h : e.curFrlInputLen = 0) :
    fancyReadlineRedisplay e = some (e.printf (promptRedraw e)) := if_pos h

theorem redisplay_text (h : e.curFrlInputLen ≠ 0) (hr : Ready e txt) :
    fancyReadlineRedisplay e = some
      { e with
        doneDisplay := true
        stdout := e.stdout ++ promptRedraw e ++ txt.flatMap (displayByte e.frlPromptLen) ++ cursorMove e } := by
  obtain ⟨blk, hblk⟩ := Option.ne_none_iff_exists'.1 (mt hr.input h)
  have htxt := hr.text
  rw [Editor.text, hblk] at htxt
  unfold fancyReadlineRedisplay Editor.printf
  simp only [Option.bind_eq_bind]
  rw [if_neg h, hblk, Option.bind_some, show cstr blk = some txt from htxt, Option.bind_some]
  rfl

/-- What a redisplay leaves to be shown, read off the screen once the prompt is written again. -/
def Displayable (top : ℕ) (e : Editor) (txt : List Byte) (t : Terminal) : Prop :=
  t.row = top ∧ (furtherLines txt ≠ [] → 3 ≤ e.frlPromptLen) ∧
    (∀ j, e.frlPromptLen + 2 + (firstLine txt).length ≤ j → t.cell top j = blank) ∧
    ∀ k, top + (furtherLines txt).length < k → Reads (t.cell k) []

theorem shows_iff_displayable (hr : Ready e txt) (ha : AtPrompt e.frlPrompt t)
    (htxt : e'.text = some txt) (hprompt : e'.frlPrompt = e.frlPrompt)
    (hlen : e'.frlPromptLen = e.frlPromptLen) (hcol : ((screen top cell e').col : ℤ) = e'.curCursorCol)
    (hd : Drawn e.frlPromptLen txt t (screen top cell e')) :
    Shows top cell e' ↔ Displayable top e txt t := by
  have hshown : Shown top e.frlPrompt e.frlPrompt.length txt (screen top cell e') ↔ _ :=
    shown_drawn_iff ha (hr.promptLen ▸ hd)
  rw [← hr.promptLen] at hshown
  rw [Displayable, ← hshown]
  constructor
  · rintro ⟨txt', htxt', hs, -⟩
    obtain rfl := Option.some.inj (htxt.symm.trans htxt')
    rwa [hprompt, hlen] at hs
  · intro hs
    exact ⟨txt, htxt, by rwa [hprompt, hlen], hcol⟩

theorem redisplay_shows_iff (hr : Ready e txt)
    (ha : AtPrompt e.frlPrompt ((screen top cell e).feed (promptRedraw e))) :
    ∃ e', fancyReadlineRedisplay e = some e' ∧ (screen top cell e').mode = .ground ∧
      (e.curFrlInputLen ≠ 0 ∨ e.doneDisplay = true → e'.doneDisplay = true) ∧
      (Shows top cell e' ↔ Displayable top e txt ((screen top cell e).feed (promptRedraw e))) := by
  generalize ht : (screen top cell e).feed (promptRedraw e) = t at ha ⊢
  by_cases hempty : e.curFrlInputLen = 0
  · -- nothing is written behind the prompt
    obtain ⟨rfl, hcol⟩ := hr.empty hempty
    have hscreen : screen top cell (e.printf (promptRedraw e)) = t := (screen_printf _).trans ht
    refine ⟨_, redisplay_nothing hempty, hscreen ▸ ha.mode, fun h => h.resolve_left (not_not.2 hempty),
      shows_iff_displayable hr ha hr.text rfl rfl ?_ ?_⟩
    · rw [hscreen, ha.col, ← hr.promptLen]
      exact (Nat.cast_add _ _).trans hcol.symm
    · rw [hscreen]
      exact drawn_feed ha.mode e.frlPromptLen (by simp)
  · -- the text is, and the cursor put where it is recorded
    have hdraw := drawn_feed ha.mode e.frlPromptLen hr.showable
    have hscreen : ∀ e' : Editor, e'.stdout = e.stdout ++ promptRedraw e ++
        txt.flatMap (displayByte e.frlPromptLen) ++ cursorMove e →
        screen top cell e' = { t.feed (txt.flatMap (displayByte e.frlPromptLen)) with
          col := e.curCursorCol.toNat } := by
      intro e' hout
      rw [← feed_cursorMove hdraw.mode hr.col_ge, ← ht, screen, hout, Terminal.feed_append,
        Terminal.feed_append, Terminal.feed_append]
      rfl
    refine ⟨_, redisplay_text hempty hr, ?_, fun _ => rfl,
      shows_iff_displayable hr ha hr.text rfl rfl ?_ ?_⟩
    · rw [hscreen _ rfl]
      exact hdraw.mode
    · rw [hscreen _ rfl]
      have hge := hr.col_ge
      exact Int.toNat_of_nonneg (by omega)
    · rw [hscreen _ rfl]
      exact ⟨hdraw.mode, hdraw.row, hdraw.first, hdraw.further, hdraw.other⟩

/-- Once something is displayed, a redisplay shows the text exactly when it starts over on the row of
the prompt, and nothing to be seen is left where it does not write. -/
theorem redisplay_again_iff (hr : Ready e txt) (h : (screen top cell e).mode = .ground)
    (hdone : e.doneDisplay = true) :
    ∃ e', fancyReadlineRedisplay e = some e' ∧ (screen top cell e').mode = .ground ∧
      e'.doneDisplay = true ∧
      (Shows top cell e' ↔ Displayable top e txt
        { screen top cell e with row := (screen top cell e).row - e.curFrlInputLines }) := by
  have hredraw := feed_promptRedraw h hr.prompt hdone
  have ha : AtPrompt e.frlPrompt ((screen top cell e).feed (promptRedraw e)) := by
    rw [hredraw]
    exact atPrompt_put (t := { screen top cell e with
      row := (screen top cell e).row - e.curFrlInputLines, col := 0 }) h rfl
  obtain ⟨e', hstep, hmode, hdone', hiff⟩ := redisplay_shows_iff hr ha
  refine ⟨e', hstep, hmode, hdone' (Or.inr hdone), hiff.trans ?_⟩
  rw [hredraw]
  refine and_congr_right fun hrow => and_congr_right fun _ => ?_
  -- the prompt is written over itself, and leaves the rest of the screen
  have hcell : ∀ k j, k ≠ top ∨ e.frlPromptLen + 2 ≤ j →
      (Terminal.put { screen top cell e with
        row := (screen top cell e).row - e.curFrlInputLines, col := 0 } (promptText e)).cell k j =
      (screen top cell e).cell k j := by
    intro k j hkj
    rw [Terminal.put_cell]
    split_ifs with hk
    · have hj := hkj.resolve_left (not_not.2 (hk.trans hrow))
      rw [overlay_after (by rwa [Nat.zero_add, promptText, length_promptText, ← hr.promptLen]), hk]
    · rfl
  refine and_congr (forall₂_congr fun j hj => ?_) (forall₂_congr fun k hk => forall_congr' fun j => ?_)
  · rw [hcell top j (Or.inr (by omega))]
  · rw [hcell k j (Or.inl (by omega))]

end Redisplay

end MutantC.FancyReadline
