import MutantC.FancyReadline.ReadlineScreen

/-! The screen over a whole run: what each key leaves on it, and exactly which keys keep it showing the
input. -/

namespace MutantC.FancyReadline
open AnsiScreen CBuffer Decimal Iteration

/-! ### The text, where characters are counted and not always stored -/

/-- A character is stored where the cursor, the recorded length and the string end together. -/
def Stores (e : Editor) (txt : List Byte) : Prop :=
  e.curCursorOffs = e.curFrlInputLen ∧ txt.length = e.curFrlInputLen

section Insert
variable {fill : Editor → ℕ → Byte} {e : Editor} {txt : List Byte}

theorem addchar_unstored (hb : InBounds e) (htxt : e.text = some txt)
    (hlen : txt.length ≤ e.curFrlInputLen) (hno : ¬ Stores e txt) (fill : Editor → ℕ → Byte) (c : Byte) :
    ∃ blk, fancyReadlineAddchar fill e c = some (e.advance (some blk) 1) ∧ cstr blk = some txt := by
  by_cases hend : e.curCursorOffs = e.curFrlInputLen
  · have hlt : txt.length < e.curFrlInputLen := lt_of_le_of_ne hlen fun heq => hno ⟨hend, heq⟩
    obtain ⟨blk, hblk⟩ := Option.ne_none_iff_exists'.1 fun hnull => by
      have hempty := hb.empty hnull
      omega
    rw [Editor.text, hblk] at htxt
    have hroom := length_realloc blk (e.curFrlInputLen + 2) (fill e)
    have hkept := cstr_realloc htxt (show txt.length < e.curFrlInputLen + 2 by omega) (fill e)
    refine ⟨_, ?_, cstr_set_after (cstr_set_after hkept hlt c) (Nat.lt_succ_of_lt hlt) 0⟩
    unfold fancyReadlineAddchar
    rw [if_pos hend, hblk, Option.getD_some]
    simp only [Option.bind_eq_bind]
    rw [store, if_pos (by omega), Option.bind_some, store, if_pos (by rw [List.length_set]; omega)]
    rfl
  · obtain ⟨blk, hblk⟩ := Option.ne_none_iff_exists'.1 fun hnull => hend (hb.offs_eq_of_null hnull)
    rw [Editor.text, hblk] at htxt
    exact ⟨blk, hblk ▸ addchar_mid hend c, htxt⟩

theorem addSpaces_unstored (hb : InBounds e) (htxt : e.text = some txt)
    (hlen : txt.length ≤ e.curFrlInputLen) (hno : ¬ Stores e txt) (fill : Editor → ℕ → Byte) (n : ℕ) :
    ∃ input, addSpaces fill n e = some (e.advance input n) ∧ textOf input = some txt ∧
      (input = none → e.curFrlInput = none) := by
  induction n generalizing e with
  | zero => exact ⟨e.curFrlInput, congrArg some (advance_zero e).symm, htxt, id⟩
  | succ n ih =>
    obtain ⟨blk, hadd, hblk⟩ := addchar_unstored hb htxt hlen hno fill 32
    have hno' : ¬ Stores (e.advance (some blk) 1) txt := by
      rintro ⟨-, heq⟩
      have hlonger : txt.length = e.curFrlInputLen + 1 := heq
      omega
    obtain ⟨input, hrest, htext, hnull⟩ := ih (hb.addchar hadd) hblk (Nat.le_succ_of_le hlen) hno'
    rw [advance_advance, Nat.add_comm] at hrest
    refine ⟨input, ?_, htext, fun hn => absurd (hnull hn) (Option.some_ne_none blk)⟩
    rw [addSpaces, hadd, Option.bind_some, hrest]

end Insert

/-! ### The lines of a text -/

section Lines
variable {txt : List Byte}

theorem length_furtherLines (txt : List Byte) : (furtherLines txt).length = txt.count 10 := by
  induction txt with
  | nil => rfl
  | cons c txt ih =>
    rw [furtherLines, List.count_cons]
    split_ifs with h₁ h₂ h₂
    · rw [List.length_cons, ih]
    · exact absurd (beq_iff_eq.2 h₁) h₂
    · exact absurd (beq_iff_eq.1 h₂) h₁
    · exact ih

theorem furtherLines_eq_nil_iff : furtherLines txt = [] ↔ 10 ∉ txt := by
  rw [← List.length_eq_zero_iff, length_furtherLines, List.count_eq_zero]

theorem firstLine_append_of_mem {a : List Byte} (h : 10 ∈ a) (b : List Byte) :
    firstLine (a ++ b) = firstLine a := by
  rw [firstLine, List.takeWhile_append, if_neg]
  · rfl
  · intro hlen
    have hall := List.takeWhile_eq_self_iff.1 (List.IsPrefix.eq_of_length (List.takeWhile_prefix _) hlen)
    exact absurd rfl (of_decide_eq_true (hall 10 h))

theorem firstLine_of_notMem (h : 10 ∉ txt) : firstLine txt = txt :=
  List.takeWhile_eq_self_iff.2 fun _ hc => decide_eq_true fun heq => h (heq ▸ hc)

theorem length_firstLine_append_le (a b : List Byte) :
    (firstLine a).length ≤ (firstLine (a ++ b)).length := by
  by_cases h : 10 ∈ a
  · rw [firstLine_append_of_mem h]
  · have hall : (a.takeWhile (· ≠ 10)).length = a.length :=
      congrArg List.length (firstLine_of_notMem h)
    rw [firstLine_of_notMem h, firstLine, List.takeWhile_append, if_pos hall, List.length_append]
    exact Nat.le_add_right _ _

end Lines

/-! ### What every key leaves -/

def lineOffs (e : Editor) : ℕ := (e.curCursorOffs - (e.curCursorCol - (e.frlPromptLen + 2))).toNat

structure Prepared (e : Editor) (txt : List Byte) : Prop where
  bounds : InBounds e
  promptLen : e.frlPromptLen = e.frlPrompt.length
  prompt : ∀ b ∈ e.frlPrompt, IsPrintable b
  text : e.text = some txt
  showable : ∀ c ∈ txt, IsShowable c
  len : txt.length ≤ e.curFrlInputLen
  line : 10 ∉ txt.drop (lineOffs e)

structure Settled (top : ℕ) (cell : ℕ → ℕ → Byte) (e : Editor) (txt : List Byte) : Prop
    extends Prepared e txt where
  mode : (screen top cell e).mode = .ground
  wide : furtherLines txt ≠ [] → 3 ≤ e.frlPromptLen
  fresh : e.doneDisplay = false → e.curFrlInput = none ∧ e.curFrlInputLines = 0

/-- A key gets through and leaves the screen right exactly when `c` holds, and then it leaves the editor
settled. -/
structure Leads (top : ℕ) (cell : ℕ → ℕ → Byte) (r : Option Editor) (c : Prop) : Prop where
  shows_iff : (∃ e', r = some e' ∧ Shows top cell e') ↔ c
  settled : ∀ e', r = some e' → Shows top cell e' → ∃ txt, Settled top cell e' txt

section Steps
variable {top : ℕ} {cell : ℕ → ℕ → Byte} {e e' : Editor} {txt : List Byte} {c : Prop}

theorem Leads.of_iff {d : Prop} {r : Option Editor} (h : Leads top cell r c) (hcd : c ↔ d) :
    Leads top cell r d := ⟨h.shows_iff.trans hcd, h.settled⟩

theorem Leads.stay (hs : Settled top cell e txt) (hshows : Shows top cell e) (hc : c) :
    Leads top cell (some e) c := by
  refine ⟨iff_of_true ⟨e, rfl, hshows⟩ hc, fun e' he' _ => ?_⟩
  obtain rfl := Option.some.inj he'
  exact ⟨txt, hs⟩

theorem Leads.fault (hc : ¬ c) : Leads top cell none c :=
  ⟨iff_of_false (fun h => by obtain ⟨e', he', -⟩ := h; cases he') hc, fun _ he' => by cases he'⟩

theorem Prepared.ready (hp : Prepared e txt) : Ready e txt := by
  refine ⟨hp.promptLen, hp.prompt, hp.text, hp.showable, hp.bounds.empty, hp.bounds.col_ge, ?_⟩
  intro hempty
  have hlen := hp.len
  have hge := hp.bounds.col_ge
  have hcol := hp.bounds.col_le
  have hoffs := hp.bounds.offs_le
  exact ⟨List.length_eq_zero_iff.1 (by omega), by omega⟩

theorem Prepared.notMem_drop (hp : Prepared e txt) {n : ℕ} (hn : lineOffs e ≤ n) : 10 ∉ txt.drop n := by
  rw [← Nat.add_sub_cancel' hn, ← List.drop_drop]
  exact fun hmem => hp.line (List.mem_of_mem_drop hmem)

theorem Prepared.of_redisplay (hp : Prepared e txt) (h : fancyReadlineRedisplay e = some e') :
    Prepared e' txt := by
  have hb := hp.bounds.redisplay h
  obtain ⟨shown, out, rfl⟩ := redisplay_some h
  exact ⟨hb, hp.promptLen, hp.prompt, hp.text, hp.showable, hp.len, hp.line⟩

theorem Prepared.leads_of (hp : Prepared e txt) {t : Terminal}
    (h : ∃ e', fancyReadlineRedisplay e = some e' ∧ (screen top cell e').mode = .ground ∧
      e'.doneDisplay = true ∧ (Shows top cell e' ↔ Displayable top e txt t)) :
    Leads top cell (fancyReadlineRedisplay e) (Displayable top e txt t) := by
  obtain ⟨e', hstep, hmode, hdone, hiff⟩ := h
  rw [hstep]
  constructor
  · rw [← hiff]
    constructor
    · rintro ⟨e'', he'', hshows⟩
      obtain rfl := Option.some.inj he''
      exact hshows
    · exact fun hshows => ⟨e', rfl, hshows⟩
  · intro e'' he'' hshows
    obtain rfl := Option.some.inj he''
    obtain ⟨-, hwide, -⟩ := hiff.1 hshows
    refine ⟨txt, hp.of_redisplay hstep, hmode, ?_, fun hfresh => ?_⟩
    · obtain ⟨shown, out, rfl⟩ := redisplay_some hstep
      exact hwide
    · rw [hdone] at hfresh
      cases hfresh

/-- A redisplay over a screen with the same cells, of a text that covers the one shown: only the row it
starts on matters, and the width of the prompt. -/
theorem Settled.displayable_iff {e₁ : Editor} {txt' : List Byte} {t : Terminal}
    (hs : Settled top cell e txt) (hshows : Shows top cell e) (hlen : e₁.frlPromptLen = e.frlPromptLen)
    (hcell : t.cell = (screen top cell e).cell)
    (hfirst : (firstLine txt).length ≤ (firstLine txt').length)
    (hlines : (furtherLines txt).length ≤ (furtherLines txt').length) :
    Displayable top e₁ txt' t ↔ t.row = top ∧ (furtherLines txt' ≠ [] → 3 ≤ e.frlPromptLen) := by
  obtain ⟨txt₀, htxt₀, hshown, -⟩ := hshows
  obtain rfl := Option.some.inj (hs.text.symm.trans htxt₀)
  rw [Displayable, hlen, hcell]
  refine and_congr_right fun _ => and_iff_left ⟨fun j hj => ?_, fun k hk => ?_⟩
  · have hprompt := hs.promptLen
    rw [hshown.first, List.getD_eq_default]
    rw [List.length_append, length_promptText]
    omega
  · exact hshown.below k (by omega)

theorem Settled.displayable_iff_row {e₁ : Editor} {txt' : List Byte} {t : Terminal}
    (hs : Settled top cell e txt) (hshows : Shows top cell e) (hlen : e₁.frlPromptLen = e.frlPromptLen)
    (hcell : t.cell = (screen top cell e).cell)
    (hfirst : (firstLine txt).length ≤ (firstLine txt').length)
    (hlines : (furtherLines txt').length = (furtherLines txt).length) :
    Displayable top e₁ txt' t ↔ t.row = top := by
  rw [hs.displayable_iff hshows hlen hcell hfirst hlines.ge]
  refine and_iff_left fun hne => hs.wide fun hnil => hne (List.length_eq_zero_iff.1 ?_)
  rw [hlines, hnil, List.length_nil]

end Steps

/-! ### The keys -/

/-- The recorded number of lines brings a redisplay back up to the row of the prompt. -/
def Lined (top : ℕ) (e : Editor) : Prop :=
  ∀ txt, e.text = some txt → top + (furtherLines txt).length - e.curFrlInputLines = top

section Keys
variable {top : ℕ} {cell : ℕ → ℕ → Byte} {e : Editor} {txt : List Byte}

theorem Settled.lined_iff (hs : Settled top cell e txt) (hshows : Shows top cell e) :
    (screen top cell e).row - e.curFrlInputLines = top ↔ Lined top e := by
  obtain ⟨txt₀, htxt₀, hshown, -⟩ := hshows
  obtain rfl := Option.some.inj (hs.text.symm.trans htxt₀)
  rw [hshown.row]
  constructor
  · intro h txt' htxt'
    obtain rfl := Option.some.inj (hs.text.symm.trans htxt')
    exact h
  · exact fun h => h txt hs.text

theorem lineOffs_advance (e : Editor) (input : Option (List Byte)) (n : ℕ) :
    lineOffs (e.advance input n) = lineOffs e := by
  unfold lineOffs Editor.advance
  congr 1
  ring

theorem Prepared.addchar (hp : Prepared e txt) (fill : Editor → ℕ → Byte) {c : Byte} (hc : IsPrintable c) :
    ∃ blk txt', fancyReadlineAddchar fill e c = some (e.advance (some blk) 1) ∧
      Prepared (e.advance (some blk) 1) txt' ∧ (txt' = txt ++ [c] ∨ txt' = txt) := by
  have hline := hp.line
  by_cases hstores : Stores e txt
  · have hend : AtEnd e txt := ⟨hp.text, hstores.2, hstores.1⟩
    have hzero : c ≠ 0 := by
      rintro rfl
      exact absurd hc.1 (by decide)
    have hnewline : (10 : Byte) ≠ c := by
      rintro rfl
      exact absurd hc.1 (by decide)
    obtain ⟨blk, hadd, hend'⟩ := hend.addchar fill hzero
    refine ⟨blk, _, hadd, ⟨hp.bounds.addchar hadd, hp.promptLen, hp.prompt, hend'.text, ?_,
      hend'.len.le, ?_⟩, Or.inl rfl⟩
    · exact List.forall_mem_append.2 ⟨hp.showable, List.forall_mem_singleton.2 (Or.inr hc)⟩
    · rw [lineOffs_advance, List.drop_append, List.mem_append, not_or]
      exact ⟨hline, fun hmem => hnewline (List.mem_singleton.1 (List.mem_of_mem_drop hmem))⟩
  · obtain ⟨blk, hadd, htxt⟩ := addchar_unstored hp.bounds hp.text hp.len hstores fill c
    refine ⟨blk, txt, hadd, ⟨hp.bounds.addchar hadd, hp.promptLen, hp.prompt, htxt, hp.showable,
      Nat.le_succ_of_le hp.len, ?_⟩, Or.inr rfl⟩
    rwa [lineOffs_advance]

theorem Settled.atPrompt (hs : Settled top cell e txt) (hshows : Shows top cell e)
    (hfresh : e.doneDisplay = false) : AtPrompt e.frlPrompt (screen top cell e) := by
  obtain ⟨hnull, -⟩ := hs.fresh hfresh
  obtain ⟨rfl, hcol⟩ := hs.toPrepared.ready.empty (hs.bounds.empty hnull)
  obtain ⟨txt₀, htxt₀, hshown, hscreen⟩ := hshows
  obtain rfl := Option.some.inj (hs.text.symm.trans htxt₀)
  have hprompt := hs.promptLen
  refine ⟨hs.mode, by omega, fun j _ => ?_⟩
  rw [hshown.row]
  exact (hshown.first j).trans (by rw [firstLine, List.takeWhile_nil, List.append_nil])

theorem Settled.char (hs : Settled top cell e txt) (hshows : Shows top cell e)
    (fill : Editor → ℕ → Byte) (c : Printable) :
    Leads top cell (press fill e (.char c)) (Lined top e) := by
  obtain ⟨blk, txt', hadd, hp, htxt'⟩ := hs.toPrepared.addchar fill c.property
  have hpress : press fill e (.char c) = fancyReadlineRedisplay (e.advance (some blk) 1) :=
    congrArg (Option.bind · _) hadd
  have hfirst : (firstLine txt).length ≤ (firstLine txt').length := by
    rcases htxt' with rfl | rfl
    · exact length_firstLine_append_le txt [c.val]
    · exact le_rfl
  have hlines : (furtherLines txt').length = (furtherLines txt).length := by
    rcases htxt' with rfl | rfl
    · have hne : c.val ≠ 10 := by
        intro heq
        have hge := c.property.1
        rw [heq] at hge
        exact absurd hge (by decide)
      rw [length_furtherLines, length_furtherLines, List.count_append, List.count_singleton,
        if_neg (by simpa using hne), add_zero]
    · rfl
  rw [hpress]
  cases hdone : e.doneDisplay with
  -- the row of the prompt is found again by the count of line breaks
  | true =>
    refine (hp.leads_of (redisplay_again_iff hp.ready hs.mode hdone)).of_iff ?_
    refine Iff.trans ?_ (hs.lined_iff hshows)
    exact hs.displayable_iff_row hshows rfl rfl hfirst hlines
  | false =>
    have hredraw : (screen top cell (e.advance (some blk) 1)).feed
        (promptRedraw (e.advance (some blk) 1)) = screen top cell e := by
      have hnothing : promptRedraw (e.advance (some blk) 1) = [] := by
        rw [promptRedraw, if_neg]
        exact fun hdone' => Bool.noConfusion (hdone.symm.trans hdone')
      rw [hnothing]
      rfl
    have ha : AtPrompt e.frlPrompt (screen top cell e) := hs.atPrompt hshows hdone
    rw [← hredraw] at ha
    obtain ⟨e', hstep, hmode, hdone', hiff⟩ := redisplay_shows_iff hp.ready ha
    rw [hredraw] at hiff
    refine (hp.leads_of ⟨e', hstep, hmode, hdone' (Or.inl (Nat.succ_ne_zero _)), hiff⟩).of_iff ?_
    refine Iff.trans ?_ (hs.lined_iff hshows)
    rw [(hs.fresh hdone).2, Nat.sub_zero]
    exact hs.displayable_iff_row hshows rfl rfl hfirst hlines

theorem Settled.moved {e₁ : Editor} (hs : Settled top cell e txt) (hshows : Shows top cell e)
    (hp : Prepared e₁ txt) (hlen : e₁.frlPromptLen = e.frlPromptLen) (hdone : e₁.doneDisplay = true)
    (hmode : (screen top cell e₁).mode = .ground)
    (hcell : (screen top cell e₁).cell = (screen top cell e).cell)
    (hrow : (screen top cell e₁).row - e₁.curFrlInputLines =
      (screen top cell e).row - e.curFrlInputLines) :
    Leads top cell (fancyReadlineRedisplay e₁) (Lined top e) := by
  refine (hp.leads_of (redisplay_again_iff hp.ready hmode hdone)).of_iff ?_
  refine Iff.trans ?_ (hs.lined_iff hshows)
  rw [← hrow]
  exact hs.displayable_iff_row hshows hlen hcell le_rfl rfl

theorem Settled.done (hs : Settled top cell e txt) (hinput : e.curFrlInput ≠ none) :
    e.doneDisplay = true := by
  by_contra hfresh
  exact hinput (hs.fresh (eq_false_of_ne_true hfresh)).1

theorem Settled.input_of_col (hs : Settled top cell e txt)
    (hcol : ¬ e.curCursorCol ≤ e.frlPromptLen + 2) : e.curFrlInput ≠ none :=
  fun hnull => hcol (hs.toPrepared.ready.empty (hs.bounds.empty hnull)).2.le

theorem Prepared.shift (hp : Prepared e txt) {d : ℤ}
    (hge : (e.frlPromptLen : ℤ) + 2 ≤ e.curCursorCol + d)
    (hle : e.curCursorOffs + d ≤ e.curFrlInputLen) (out : List Byte) :
    Prepared ((e.shift d).printf out) txt := by
  have hstart : lineOffs ((e.shift d).printf out) = lineOffs e := by
    unfold lineOffs Editor.shift Editor.printf
    congr 1
    ring
  refine ⟨hp.bounds.shift hge hle out, hp.promptLen, hp.prompt, hp.text, hp.showable, hp.len, ?_⟩
  rw [hstart]
  exact hp.line

theorem Settled.left (hs : Settled top cell e txt) (hshows : Shows top cell e)
    (fill : Editor → ℕ → Byte) :
    Leads top cell (press fill e .left) (¬ e.curCursorCol ≤ e.frlPromptLen + 2 → Lined top e) := by
  change Leads top cell (fancyReadlineMoveleft e) _
  unfold fancyReadlineMoveleft
  split_ifs with hcol
  · exact Leads.stay hs hshows fun h => absurd hcol h
  have hback : screen top cell ((e.shift (-1)).printf [8]) =
      { screen top cell e with col := (screen top cell e).col - 1 } :=
    (screen_printf _).trans (Terminal.step_backspace hs.mode)
  have hoffs := hs.bounds.offs_le
  have hp : Prepared ((e.shift (-1)).printf [8]) txt :=
    hs.toPrepared.shift (by omega) (by omega) [8]
  refine Leads.of_iff ?_ (forall_prop_of_true hcol).symm
  apply hs.moved hshows hp rfl (hs.done (hs.input_of_col hcol))
  · rw [hback]
    exact hs.mode
  · rw [hback]
  · rw [hback]
    rfl

theorem Settled.right (hs : Settled top cell e txt) (hshows : Shows top cell e)
    (fill : Editor → ℕ → Byte) :
    Leads top cell (press fill e .right) (e.curCursorOffs ≠ e.curFrlInputLen → Lined top e) := by
  change Leads top cell (fancyReadlineMoveright e) _
  unfold fancyReadlineMoveright
  split_ifs with hend
  · exact Leads.stay hs hshows fun h => absurd hend h
  have hforward : screen top cell ((e.shift 1).printf [27, 91, 49, 67]) =
      { screen top cell e with col := (screen top cell e).col + 1 } :=
    (screen_printf _).trans ((Terminal.feed_csi hs.mode 1 (show ¬ IsDigit 67 by decide)).trans
      (Terminal.csi_forward 1 Nat.one_pos))
  have hge := hs.bounds.col_ge
  have hlt := lt_of_le_of_ne hs.bounds.offs_le hend
  have hp : Prepared ((e.shift 1).printf [27, 91, 49, 67]) txt :=
    hs.toPrepared.shift (by omega) hlt [27, 91, 49, 67]
  refine Leads.of_iff ?_ (forall_prop_of_true hend).symm
  apply hs.moved hshows hp rfl (hs.done fun hnull => hend (hs.bounds.offs_eq_of_null hnull))
  · rw [hforward]
    exact hs.mode
  · rw [hforward]
  · rw [hforward]
    rfl

theorem enter_unstored {blk : List Byte} (hb : InBounds e) (htxt : e.text = some txt)
    (hlen : txt.length ≤ e.curFrlInputLen) (hblk : e.curFrlInput = some blk)
    (hno : ¬ Stores e txt) (fill : Editor → ℕ → Byte) :
    ∃ input, input ≠ none ∧
      fancyReadlineEnter fill e = fancyReadlineRedisplay (e.entered input (indentOf txt)) ∧
      textOf input = some txt := by
  have hindent : fancyReadlineCalcIndent e.curFrlInput = some (indentOf txt) := by
    have hcstr := htxt
    rw [Editor.text, hblk] at hcstr
    rw [hblk, calcIndent_eq hcstr]
  have hb : InBounds (e.newLine (indentOf txt)) := ⟨hb.empty, hb.col_ge, hb.col_le, hb.offs_le⟩
  obtain ⟨blk₁, hadd, hblk₁⟩ := addchar_unstored hb htxt hlen hno fill 10
  have hb₁ : InBounds ((e.newLine (indentOf txt)).advance (some blk₁) 1) := hb.addchar hadd
  have hcol : InBounds ((e.newLine (indentOf txt)).advance (some blk₁) 1).lineStart :=
    ⟨hb₁.empty, le_rfl, le_of_eq_of_le (sub_self _) hb₁.offs_nonneg, hb₁.offs_le⟩
  have hno₁ : ¬ Stores ((e.newLine (indentOf txt)).advance (some blk₁) 1).lineStart txt := by
    rintro ⟨-, heq⟩
    have hlonger : txt.length = e.curFrlInputLen + 1 := heq
    omega
  obtain ⟨input, hspaces, htxt, hnull⟩ :=
    addSpaces_unstored hcol hblk₁ (Nat.le_succ_of_le hlen) hno₁ fill (indentOf txt)
  have hstep := enter_eq hindent hadd hspaces
  exact ⟨input, fun hn => absurd (hnull hn) (Option.some_ne_none blk₁), hstep, htxt⟩

theorem Prepared.entered (hp : Prepared e txt) {input : Option (List Byte)} (hinput : input ≠ none)
    (n : ℕ) {txt' : List Byte} (htext : textOf input = some txt') (hshow : ∀ c ∈ txt', IsShowable c)
    (hlen : txt'.length ≤ e.curFrlInputLen + 1 + n)
    (hline : 10 ∉ txt'.drop (e.curCursorOffs + 1).toNat) : Prepared (e.entered input n) txt' := by
  have hstart : lineOffs (e.entered input n) = (e.curCursorOffs + 1).toNat := by
    unfold lineOffs Editor.entered Editor.advance Editor.lineStart Editor.newLine Editor.printf
    simp only [Nat.cast_one]
    congr 1
    ring
  refine ⟨hp.bounds.entered hinput n, hp.promptLen, hp.prompt, htext, hshow, hlen, ?_⟩
  rwa [hstart]

theorem Settled.screen_entered (hs : Settled top cell e txt) (input : Option (List Byte)) (n : ℕ) :
    screen top cell (e.entered input n) =
      { screen top cell e with row := (screen top cell e).row + 1, col := 0 } := by
  refine (screen_printf _).trans ?_
  have hdown : (screen top cell e).feed [10, 13] =
      Terminal.step { screen top cell e with row := (screen top cell e).row + 1 } 13 := by
    rw [Terminal.feed_cons, Terminal.step_lineFeed hs.mode]
    rfl
  exact hdown.trans (Terminal.step_return hs.mode)

theorem Settled.enter_stores (hs : Settled top cell e txt) (hshows : Shows top cell e)
    (hinput : e.curFrlInput ≠ none) (hstores : Stores e txt) (fill : Editor → ℕ → Byte) :
    Leads top cell (fancyReadlineEnter fill e) (Lined top e ∧ 3 ≤ e.frlPromptLen) := by
  have hend : AtEnd e txt := ⟨hs.text, hstores.2, hstores.1⟩
  obtain ⟨input, hnew, hstep, hend'⟩ := hend.enter_eq fill hinput
  have hscreen := hs.screen_entered input (indentOf txt)
  have hp : Prepared (e.entered input (indentOf txt))
      (txt ++ 10 :: List.replicate (indentOf txt) 32) := by
    apply hs.toPrepared.entered hnew _ hend'.text _ hend'.len.le
    · have hoffs : (e.curCursorOffs + 1).toNat = txt.length + 1 := by
        rw [hstores.1, hstores.2]
        rfl
      rw [hoffs, List.drop_length_add_append]
      exact fun hmem => absurd (List.eq_of_mem_replicate hmem) (by decide)
    · refine List.forall_mem_append.2 ⟨hs.showable, List.forall_mem_cons.2 ⟨Or.inl rfl, ?_⟩⟩
      intro c hc
      rw [List.eq_of_mem_replicate hc]
      exact Or.inr isPrintable_blank
  have hmode : (screen top cell (e.entered input (indentOf txt))).mode = .ground := by
    rw [hscreen]
    exact hs.mode
  have hcell : (screen top cell (e.entered input (indentOf txt))).cell = (screen top cell e).cell := by
    rw [hscreen]
  have hrow : (screen top cell (e.entered input (indentOf txt))).row -
      (e.entered input (indentOf txt)).curFrlInputLines = top ↔ Lined top e := by
    rw [← hs.lined_iff hshows, hscreen]
    exact iff_of_eq (congrArg (· = top) (Nat.add_sub_add_right _ 1 _))
  have hlines : furtherLines (txt ++ 10 :: List.replicate (indentOf txt) 32) ≠ [] := by
    rw [Ne, furtherLines_eq_nil_iff, not_not]
    simp
  have hmore : (furtherLines txt).length ≤
      (furtherLines (txt ++ 10 :: List.replicate (indentOf txt) 32)).length := by
    rw [length_furtherLines, length_furtherLines, List.count_append]
    exact Nat.le_add_right _ _
  rw [hstep]
  refine (hp.leads_of (redisplay_again_iff hp.ready hmode (hs.done hinput))).of_iff ?_
  refine Iff.trans (hs.displayable_iff hshows ?_ ?_ (length_firstLine_append_le _ _) hmore) ?_
  · rfl
  · exact hcell
  · exact and_congr hrow (forall_prop_of_true hlines)

/-- One that is not stored is counted all the same, and the text is shown again as it was. -/
theorem Settled.enter_skips (hs : Settled top cell e txt) (hshows : Shows top cell e) {blk : List Byte}
    (hblk : e.curFrlInput = some blk) (hno : ¬ Stores e txt) (fill : Editor → ℕ → Byte) :
    Leads top cell (fancyReadlineEnter fill e) (Lined top e) := by
  obtain ⟨input, hnew, hstep, htext⟩ := enter_unstored hs.bounds hs.text hs.len hblk hno fill
  have hscreen := hs.screen_entered input (indentOf txt)
  have hp : Prepared (e.entered input (indentOf txt)) txt := by
    apply hs.toPrepared.entered hnew _ htext hs.showable (by have := hs.len; omega)
    have hle : lineOffs e ≤ (e.curCursorOffs + 1).toNat := by
      have hge := hs.bounds.col_ge
      unfold lineOffs
      omega
    exact hs.toPrepared.notMem_drop hle
  rw [hstep]
  apply hs.moved hshows hp rfl (hs.done (hblk ▸ Option.some_ne_none blk))
  · rw [hscreen]
    exact hs.mode
  · rw [hscreen]
  · rw [hscreen]
    exact Nat.add_sub_add_right _ 1 _

theorem Settled.enter (hs : Settled top cell e txt) (hshows : Shows top cell e)
    (fill : Editor → ℕ → Byte) :
    Leads top cell (press fill e .enter) (e.curFrlInput ≠ none ∧ Lined top e ∧
      ∀ txt, e.text = some txt → Stores e txt → 3 ≤ e.frlPromptLen) := by
  change Leads top cell (fancyReadlineEnter fill e) _
  cases hinput : e.curFrlInput with
  | none =>
    rw [enter_null hinput fill]
    exact Leads.fault fun h => h.1 rfl
  | some blk =>
    have hsome : e.curFrlInput ≠ none := hinput ▸ Option.some_ne_none blk
    by_cases hstores : Stores e txt
    · refine (hs.enter_stores hshows hsome hstores fill).of_iff ⟨fun h => ?_, fun h => ?_⟩
      · exact ⟨Option.some_ne_none blk, h.1, fun _ _ _ => h.2⟩
      · exact ⟨h.2.1, h.2.2 txt hs.text hstores⟩
    · refine (hs.enter_skips hshows hinput hstores fill).of_iff ⟨fun hlined => ?_, fun h => h.2.1⟩
      refine ⟨Option.some_ne_none blk, hlined, fun txt' htxt' hstores' => ?_⟩
      obtain rfl := Option.some.inj (hs.text.symm.trans htxt')
      exact absurd hstores' hstores

/-- The characters that are cut off were blanks, but for the one that is rubbed out. -/
def Covered (e : Editor) (txt : List Byte) : Prop :=
  ∀ (i : ℕ) (c : Byte), txt[i]? = some c → e.curCursorOffs - 1 ≤ i →
    (i : ℤ) ≠ e.curCursorCol - 1 - (e.frlPromptLen + 2) → c = 32

theorem backspace_step {blk : List Byte} (hb : InBounds e)
    (hcol : ¬ e.curCursorCol ≤ e.frlPromptLen + 2) (hblk : e.curFrlInput = some blk) :
    fancyReadlineBackspace e = if e.curCursorOffs - 1 < blk.length then
      fancyReadlineRedisplay (e.erased (blk.set (e.curCursorOffs - 1).toNat 0)) else none := by
  have hle := hb.col_le
  have hoffs := hb.offs_le
  unfold fancyReadlineBackspace
  rw [if_neg hcol, if_neg (by omega), hblk]
  simp only [Option.bind_eq_bind, Option.bind_some]
  rw [guard_bind (by omega), store]
  split_ifs with h₁ h₂ h₂
  · rfl
  · exact absurd (by omega) h₂
  · exact absurd (by omega) h₁
  · rfl

theorem Prepared.erased {blk : List Byte} (hp : Prepared e txt)
    (hcol : ¬ e.curCursorCol ≤ e.frlPromptLen + 2) (hblk : e.curFrlInput = some blk) :
    Prepared (e.erased (blk.set (e.curCursorOffs - 1).toNat 0)) (txt.take (e.curCursorOffs - 1).toNat) := by
  have htxt := hp.text
  rw [Editor.text, hblk] at htxt
  have hle := hp.bounds.col_le
  have hoffs := hp.bounds.offs_le
  have hlen := hp.len
  have hstart : lineOffs (e.erased (blk.set (e.curCursorOffs - 1).toNat 0)) = lineOffs e := by
    unfold lineOffs Editor.erased Editor.printf
    congr 1
    ring
  refine ⟨hp.bounds.erased hcol _, hp.promptLen, hp.prompt, cstr_set_zero htxt _,
    fun c hc => hp.showable c (List.mem_of_mem_take hc), ?_, ?_⟩
  · change (txt.take (e.curCursorOffs - 1).toNat).length ≤ e.curFrlInputLen - 1
    rw [List.length_take]
    omega
  · rw [hstart, List.drop_take]
    exact fun hmem => hp.line (List.mem_of_mem_take hmem)

theorem Prepared.lines_erased (hp : Prepared e txt) (hcol : ¬ e.curCursorCol ≤ e.frlPromptLen + 2) :
    (furtherLines (txt.take (e.curCursorOffs - 1).toNat)).length = (furtherLines txt).length := by
  have hle : lineOffs e ≤ (e.curCursorOffs - 1).toNat := by
    unfold lineOffs
    omega
  have hcut : (10 : Byte) ∉ txt.drop (e.curCursorOffs - 1).toNat := hp.notMem_drop hle
  have hcount := congrArg (List.count 10) (List.take_append_drop (e.curCursorOffs - 1).toNat txt)
  rw [List.count_append, List.count_eq_zero.2 hcut, add_zero] at hcount
  rw [length_furtherLines, length_furtherLines, hcount]

theorem Shown.cell_top {t : Terminal} {prompt : List Byte} (h : Shown top prompt prompt.length txt t) (i : ℕ) :
    t.cell top (prompt.length + 2 + i) = (firstLine txt).getD i blank := by
  rw [← length_promptText]
  exact h.first.getD_after i

theorem Shown.clear_iff_covered {t : Terminal} (h : Shown top e.frlPrompt e.frlPrompt.length txt t)
    (hlen : e.frlPromptLen = e.frlPrompt.length) (hoffs : 0 ≤ e.curCursorOffs - 1)
    (hcol : (t.col : ℤ) = e.curCursorCol) (hge : (e.frlPromptLen : ℤ) + 2 < e.curCursorCol)
    (hnil : furtherLines txt = []) :
    (∀ j, e.frlPromptLen + 2 + (firstLine (txt.take (e.curCursorOffs - 1).toNat)).length ≤ j →
      t.rubout.cell top j = blank) ↔ Covered e txt := by
  have htxt : 10 ∉ txt := furtherLines_eq_nil_iff.1 hnil
  have hrow : t.row = top := by
    rw [h.row, hnil]
    rfl
  have hcell : ∀ i, t.rubout.cell top (e.frlPromptLen + 2 + i) =
      if e.frlPromptLen + 2 + i = t.col - 1 then blank else txt.getD i blank := by
    intro i
    have hrub := Terminal.rubout_cell_row (t := t) (e.frlPromptLen + 2 + i)
    rwa [hrow, hlen, h.cell_top, firstLine_of_notMem htxt, ← hlen] at hrub
  rw [firstLine_of_notMem fun hmem => htxt (List.mem_of_mem_take hmem), List.length_take]
  constructor
  · intro hclear i c hc hi hne
    have hblank := hclear (e.frlPromptLen + 2 + i) (by omega)
    rw [hcell, if_neg (by omega), List.getD_eq_getElem?_getD, hc] at hblank
    exact hblank
  · intro hcov j hj
    obtain ⟨i, rfl⟩ := Nat.exists_eq_add_of_le (le_trans (Nat.le_add_right _ _) hj)
    rw [hcell]
    split_ifs with hrub
    · rfl
    · cases hc : txt[i]? with
      | none => rw [List.getD_eq_getElem?_getD, hc, Option.getD_none]
      | some c =>
        have hlt := (List.getElem?_eq_some_iff.1 hc).1
        rw [List.getD_eq_getElem?_getD, hc, Option.getD_some]
        exact hcov i c hc (by omega) (by omega)

theorem Shown.clear_of_lines {t : Terminal} (h : Shown top e.frlPrompt e.frlPrompt.length txt t)
    (hlen : e.frlPromptLen = e.frlPrompt.length) (hne : furtherLines txt ≠ []) {n : ℕ}
    (hlines : (furtherLines (txt.take n)).length = (furtherLines txt).length) {j : ℕ}
    (hj : e.frlPromptLen + 2 + (firstLine (txt.take n)).length ≤ j) : t.rubout.cell top j = blank := by
  have hmem : 10 ∈ txt.take n := by
    by_contra hno
    rw [← furtherLines_eq_nil_iff, ← List.length_eq_zero_iff, hlines, List.length_eq_zero_iff] at hno
    exact hne hno
  have hfirst := firstLine_append_of_mem hmem (txt.drop n)
  rw [List.take_append_drop] at hfirst
  rw [← hfirst] at hj
  obtain ⟨i, rfl⟩ := Nat.exists_eq_add_of_le (le_trans (Nat.le_add_right _ _) hj)
  have hrow : top ≠ t.row := by
    rw [h.row]
    have hpos := List.length_pos_of_ne_nil hne
    omega
  rw [Terminal.rubout_cell_of_ne hrow, hlen, h.cell_top, List.getD_eq_default _ _ (by omega)]

/-- After `BACKSPACE` the text is displayable exactly when the lines are right and, on the row of the
prompt, what is cut off leaves nothing to be seen. -/
theorem Settled.displayable_erased_iff {blk : List Byte} (hs : Settled top cell e txt)
    (hshows : Shows top cell e) (hcol : ¬ e.curCursorCol ≤ e.frlPromptLen + 2) :
    Displayable top (e.erased blk) (txt.take (e.curCursorOffs - 1).toNat)
        { screen top cell (e.erased blk) with
          row := (screen top cell (e.erased blk)).row - (e.erased blk).curFrlInputLines } ↔
      Lined top e ∧ (furtherLines txt = [] → Covered e txt) := by
  have hlines := hs.toPrepared.lines_erased hcol
  have hlined := hs.lined_iff hshows
  have hcle := hs.bounds.col_le
  obtain ⟨txt₀, htxt₀, hshown, hscreen⟩ := hshows
  obtain rfl := Option.some.inj (hs.text.symm.trans htxt₀)
  have hrubout : screen top cell (e.erased blk) = (screen top cell e).rubout :=
    (screen_printf _).trans (Terminal.feed_rubout hs.mode)
  have hwide : furtherLines (txt.take (e.curCursorOffs - 1).toNat) ≠ [] → 3 ≤ e.frlPromptLen :=
    fun hne => hs.wide fun hnil => hne (List.length_eq_zero_iff.1 (by rw [hlines, hnil]; rfl))
  have hbelow : ∀ k, top + (furtherLines (txt.take (e.curCursorOffs - 1).toNat)).length < k →
      Reads ((screen top cell e).rubout.cell k) [] := by
    intro k hk
    rw [hlines] at hk
    rw [Terminal.rubout_cell_of_ne (by rw [hshown.row]; omega)]
    exact hshown.below k hk
  have hlen : (e.erased blk).frlPromptLen = e.frlPromptLen := rfl
  rw [hrubout, Displayable, hlen]
  refine and_congr hlined (Iff.trans (and_iff_right hwide) (Iff.trans (and_iff_left hbelow) ?_))
  have hshown' := hs.promptLen ▸ hshown
  by_cases hnil : furtherLines txt = []
  · rw [forall_prop_of_true hnil]
    exact hshown'.clear_iff_covered hs.promptLen (by omega) hscreen (not_le.1 hcol) hnil
  · exact ⟨fun _ h => absurd h hnil, fun _ j hj => hshown'.clear_of_lines hs.promptLen hnil hlines hj⟩

theorem Settled.backspace (hs : Settled top cell e txt) (hshows : Shows top cell e)
    (fill : Editor → ℕ → Byte) :
    Leads top cell (press fill e .backspace) (¬ e.curCursorCol ≤ e.frlPromptLen + 2 →
      Lined top e ∧ (∀ blk, e.curFrlInput = some blk → e.curCursorOffs - 1 < blk.length) ∧
        ∀ txt, e.text = some txt → furtherLines txt = [] → Covered e txt) := by
  change Leads top cell (fancyReadlineBackspace e) _
  by_cases hcol : e.curCursorCol ≤ e.frlPromptLen + 2
  · have hstay : fancyReadlineBackspace e = some e := if_pos hcol
    rw [hstay]
    exact Leads.stay hs hshows fun h => absurd hcol h
  obtain ⟨blk, hblk⟩ := Option.ne_none_iff_exists'.1 (hs.input_of_col hcol)
  rw [backspace_step hs.bounds hcol hblk]
  split_ifs with hroom
  · have hp := hs.toPrepared.erased hcol hblk
    have hmode : (screen top cell (e.erased (blk.set (e.curCursorOffs - 1).toNat 0))).mode = .ground := by
      rw [Editor.erased, screen_printf]
      exact (congrArg Terminal.mode (Terminal.feed_rubout hs.mode)).trans hs.mode
    refine (hp.leads_of (redisplay_again_iff hp.ready hmode (hs.done (hs.input_of_col hcol)))).of_iff ?_
    refine (hs.displayable_erased_iff hshows hcol).trans ⟨fun h _ => ⟨h.1, ?_, ?_⟩, fun h => ?_⟩
    · intro blk' hblk'
      obtain rfl := Option.some.inj (hblk.symm.trans hblk')
      exact hroom
    · intro txt' htxt'
      obtain rfl := Option.some.inj (hs.text.symm.trans htxt')
      exact h.2
    · exact ⟨(h hcol).1, (h hcol).2.2 txt hs.text⟩
  · exact Leads.fault fun h => hroom ((h hcol).2.1 blk hblk)

end Keys

/-! ### Whole runs -/

/-- What a key needs for the screen to go on showing the input: whatever redisplays needs the recorded
lines to lead back to the prompt; `BACKSPACE` must not leave behind what it cuts from a first line, and
a newline that is stored needs a prompt of three characters. -/
def DisplayKey (top : ℕ) (e : Editor) : Key → Prop
  | .char _ => Lined top e
  | .enter => e.curFrlInput ≠ none ∧ Lined top e ∧
      ∀ txt, e.text = some txt → Stores e txt → 3 ≤ e.frlPromptLen
  | .backspace => ¬ e.curCursorCol ≤ e.frlPromptLen + 2 →
      Lined top e ∧ (∀ blk, e.curFrlInput = some blk → e.curCursorOffs - 1 < blk.length) ∧
        ∀ txt, e.text = some txt → furtherLines txt = [] → Covered e txt
  | .left => ¬ e.curCursorCol ≤ e.frlPromptLen + 2 → Lined top e
  | .right => e.curCursorOffs ≠ e.curFrlInputLen → Lined top e

def blankFrom (top : ℕ) (above : ℕ → ℕ → Byte) : ℕ → ℕ → Byte :=
  fun k j => if k < top then above k j else blank

section Runs
variable {top : ℕ} {cell : ℕ → ℕ → Byte} {e : Editor} {txt : List Byte}

theorem Settled.press (hs : Settled top cell e txt) (hshows : Shows top cell e)
    (fill : Editor → ℕ → Byte) (key : Key) :
    Leads top cell (press fill e key) (DisplayKey top e key) := by
  cases key with
  | char c => exact hs.char hshows fill c
  | enter => exact hs.enter hshows fill
  | backspace => exact hs.backspace hshows fill
  | left => exact hs.left hshows fill
  | right => exact hs.right hshows fill

theorem blankFrom_reads {above : ℕ → ℕ → Byte} {k : ℕ} (h : top ≤ k) :
    Reads (blankFrom top above k) [] := fun _ => if_neg (not_lt.2 h)

theorem screen_start {prompt : List Byte} (hprompt : ∀ b ∈ prompt, IsPrintable b) :
    screen top cell (startFancyReadline prompt) =
      Terminal.put ⟨cell, top, 0, .ground⟩ (prompt ++ [62, 32]) :=
  Terminal.feed_text (t := ⟨cell, top, 0, .ground⟩) rfl
    (isPrintable_promptText (e := startFancyReadline prompt) hprompt)

theorem settled_start {prompt : List Byte} (hprompt : ∀ b ∈ prompt, IsPrintable b) :
    Settled top cell (startFancyReadline prompt) [] := by
  refine ⟨⟨inBounds_start prompt, rfl, hprompt, rfl, by simp, le_rfl, by simp⟩, ?_, fun h => absurd rfl h,
    fun _ => ⟨rfl, rfl⟩⟩
  rw [screen_start hprompt]
  rfl

theorem shows_start {above : ℕ → ℕ → Byte} {prompt : List Byte} (hprompt : ∀ b ∈ prompt, IsPrintable b) :
    Shows top (blankFrom top above) (startFancyReadline prompt) := by
  have hrow : blankFrom top above top = fun _ => blank := funext (blankFrom_reads le_rfl)
  have hfirst : (Terminal.put ⟨blankFrom top above, top, 0, .ground⟩ (prompt ++ [62, 32])).cell top =
      overlay (fun _ => blank) 0 (prompt ++ [62, 32]) := by
    rw [← hrow]
    exact Terminal.put_cell_self _
  rw [Shows, screen_start hprompt]
  refine ⟨[], rfl, ⟨?_, fun k line hline => ?_, fun k hk => ?_, rfl⟩, ?_⟩
  · change Reads _ (prompt ++ [62, 32] ++ [])
    rw [hfirst, List.append_nil]
    exact reads_overlay_blank _
  · exact absurd hline (Option.some_ne_none line).symm
  · rw [Terminal.put_cell_of_ne _ hk.ne']
    exact blankFrom_reads hk.le
  · rw [Terminal.put_col, length_promptText, Nat.zero_add]
    rfl

theorem printable_of_shows {above : ℕ → ℕ → Byte} {prompt : List Byte}
    (h : Shows top (blankFrom top above) (startFancyReadline prompt)) :
    ∀ b ∈ prompt, IsPrintable b := by
  obtain ⟨txt, -, hshown, -⟩ := h
  have hvisible : (screen top (blankFrom top above) (startFancyReadline prompt)).Visible top := by
    apply Terminal.Visible.feed
    intro k hk j
    have hblank : blankFrom top above k j = blank := blankFrom_reads hk j
    change IsPrintable (blankFrom top above k j)
    rw [hblank]
    exact isPrintable_blank
  intro b hb
  obtain ⟨j, hj, rfl⟩ := List.mem_iff_getElem.1 hb
  have hcell : _ = (prompt ++ [62, 32] ++ firstLine txt).getD j blank := hshown.first j
  rw [List.append_assoc, List.getD_append _ _ _ _ hj, List.getD_eq_getElem _ _ hj] at hcell
  rw [← hcell]
  exact hvisible top le_rfl j

/-- After every key of a run the screen shows the input, exactly when the prompt can be shown and every
key meets its condition. -/
theorem screen_shows_iff (fill : Editor → ℕ → Byte) (top : ℕ) (above : ℕ → ℕ → Byte) (prompt : List Byte)
    (keys : List Key) :
    Along (FancyReadline.press fill) (Shows top (blankFrom top above)) (startFancyReadline prompt) keys ↔
      (∀ b ∈ prompt, IsPrintable b) ∧
        Meets (FancyReadline.press fill) (DisplayKey top) (startFancyReadline prompt) keys := by
  have hrun : (∀ b ∈ prompt, IsPrintable b) →
      (Along (FancyReadline.press fill) (Shows top (blankFrom top above)) (startFancyReadline prompt) keys ↔
        Meets (FancyReadline.press fill) (DisplayKey top) (startFancyReadline prompt) keys) := by
    intro hprompt
    apply along_iff_meets (I := fun e => ∃ txt, Settled top (blankFrom top above) e txt)
    · rintro e key ⟨txt, hs⟩ hshows
      exact (hs.press hshows fill key).shows_iff
    · rintro e key e' ⟨txt, hs⟩ hshows hstep hshows'
      exact (hs.press hshows fill key).settled e' hstep hshows'
    · exact ⟨[], settled_start hprompt⟩
    · exact shows_start hprompt
  constructor
  · intro h
    have hprompt := printable_of_shows h.head
    exact ⟨hprompt, (hrun hprompt).1 h⟩
  · rintro ⟨hprompt, hmeets⟩
    exact (hrun hprompt).2 hmeets

/-- `BACKSPACE` behind the `a` of `abc` cuts the whole input and leaves `bc` on the screen. -/
theorem cut_text_stays :
    ¬ Along (FancyReadline.press fun _ _ => 0) (Shows 0 (blankFrom 0 fun _ _ => 32))
      (startFancyReadline [108, 105, 115, 112])
      [.char ⟨97, by decide⟩, .char ⟨98, by decide⟩, .char ⟨99, by decide⟩, .left, .left, .backspace] := by
  intro h
  obtain ⟨e, hrun, txt, htxt, hshown, -⟩ := h.run
  have hend : (run (FancyReadline.press fun _ _ => 0) (startFancyReadline [108, 105, 115, 112])
      [.char ⟨97, by decide⟩, .char ⟨98, by decide⟩, .char ⟨99, by decide⟩, .left, .left,
        .backspace]).map (fun e =>
          (e.text, e.frlPrompt, (screen 0 (blankFrom 0 fun _ _ => 32) e).cell 0 7)) =
      some (some [], [108, 105, 115, 112], 98) := by
    decide +kernel
  rw [hrun, Option.map_some, Option.some.injEq, Prod.mk.injEq, Prod.mk.injEq] at hend
  obtain ⟨htext, hprompt, hcell⟩ := hend
  obtain rfl := Option.some.inj (htxt.symm.trans htext)
  have hread := hshown.first 7
  rw [hcell, hprompt] at hread
  exact absurd hread (by decide)

end Runs

end MutantC.FancyReadline
