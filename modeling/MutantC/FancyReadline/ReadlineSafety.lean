import MutantC.FancyReadline.ReadlineBuffer

/-! Cursor bounds hold whatever is typed. The recorded length and the string part company exactly when
an insertion or a deletion happens away from the end, or when the first key is a newline. -/

namespace MutantC.FancyReadline
open CBuffer Iteration

section Bounds
variable {fill : Editor → ℕ → Byte} {e e' : Editor}

theorem addchar_some {c : Byte} (h : fancyReadlineAddchar fill e c = some e') :
    ∃ input, e' = e.advance input 1 ∧
      (input = none → e.curFrlInput = none ∧ e.curCursorOffs ≠ e.curFrlInputLen) := by
  unfold fancyReadlineAddchar at h
  split_ifs at h with hend
  · simp only [Option.bind_eq_bind] at h
    obtain ⟨blk, -, h⟩ := Option.bind_eq_some_iff.1 h
    obtain ⟨blk', -, h⟩ := Option.bind_eq_some_iff.1 h
    exact ⟨some blk', (Option.some.inj h).symm, fun hn => absurd hn (Option.some_ne_none blk')⟩
  · exact ⟨e.curFrlInput, (Option.some.inj h).symm, fun hn => ⟨hn, hend⟩⟩

theorem InBounds.addchar (hb : InBounds e) {c : Byte} (h : fancyReadlineAddchar fill e c = some e') :
    InBounds e' := by
  obtain ⟨input, rfl, hnull⟩ := addchar_some h
  apply hb.advance
  intro hn
  exact absurd (hb.offs_eq_of_null (hnull hn).1) (hnull hn).2

theorem InBounds.addSpaces (hb : InBounds e) {n : ℕ} (h : addSpaces fill n e = some e') :
    InBounds e' := by
  induction n generalizing e with
  | zero => rwa [← Option.some.inj h]
  | succ n ih =>
    obtain ⟨e₁, hadd, hrest⟩ := Option.bind_eq_some_iff.1 h
    exact ih (hb.addchar hadd) hrest

def Editor.erased (e : Editor) (blk : List Byte) : Editor :=
  Editor.printf { e with
    curFrlInput := some blk
    curCursorOffs := e.curCursorOffs - 1
    curCursorCol := e.curCursorCol - 1
    curFrlInputLen := e.curFrlInputLen - 1 } [8, 32, 8]

theorem InBounds.erased (hb : InBounds e) (hcol : ¬ e.curCursorCol ≤ e.frlPromptLen + 2) (blk : List Byte) :
    InBounds (e.erased blk) := by
  have hoffs := hb.offs_le
  have hle := hb.col_le
  constructor
  · intro hnull
    exact absurd hnull (Option.some_ne_none blk)
  · change (e.frlPromptLen : ℤ) + 2 ≤ e.curCursorCol - 1
    omega
  · change e.curCursorCol - 1 - (e.frlPromptLen + 2) ≤ e.curCursorOffs - 1
    omega
  · change e.curCursorOffs - 1 ≤ ((e.curFrlInputLen - 1 : ℕ) : ℤ)
    omega

theorem InBounds.backspace (hb : InBounds e) (h : fancyReadlineBackspace e = some e') :
    InBounds e' := by
  unfold fancyReadlineBackspace at h
  split_ifs at h with hcol hlen
  · rwa [← Option.some.inj h]
  · rwa [← Option.some.inj h]
  · simp only [Option.bind_eq_bind] at h
    obtain ⟨blk, -, h⟩ := Option.bind_eq_some_iff.1 h
    obtain ⟨-, -, h⟩ := Option.bind_eq_some_iff.1 h
    obtain ⟨blk', -, h⟩ := Option.bind_eq_some_iff.1 h
    exact (hb.erased hcol blk').redisplay h

def Editor.shift (e : Editor) (d : ℤ) : Editor :=
  { e with curCursorOffs := e.curCursorOffs + d, curCursorCol := e.curCursorCol + d }

theorem InBounds.shift (hb : InBounds e) {d : ℤ} (hge : (e.frlPromptLen : ℤ) + 2 ≤ e.curCursorCol + d)
    (hle : e.curCursorOffs + d ≤ e.curFrlInputLen) (out : List Byte) :
    InBounds ((e.shift d).printf out) := by
  refine ⟨hb.empty, hge, ?_, hle⟩
  have hcol := hb.col_le
  change e.curCursorCol + d - (e.frlPromptLen + 2) ≤ e.curCursorOffs + d
  omega

theorem InBounds.moveleft (hb : InBounds e) (h : fancyReadlineMoveleft e = some e') : InBounds e' := by
  unfold fancyReadlineMoveleft at h
  split_ifs at h with hcol
  · rwa [← Option.some.inj h]
  · have hoffs := hb.offs_le
    have hb' : InBounds ((e.shift (-1)).printf [8]) := hb.shift (by omega) (by omega) _
    exact hb'.redisplay h

theorem InBounds.moveright (hb : InBounds e) (h : fancyReadlineMoveright e = some e') :
    InBounds e' := by
  unfold fancyReadlineMoveright at h
  split_ifs at h with hend
  · rwa [← Option.some.inj h]
  · have hge := hb.col_ge
    have hlt := lt_of_le_of_ne hb.offs_le hend
    have hb' : InBounds ((e.shift 1).printf [27, 91, 49, 67]) := hb.shift (by omega) hlt _
    exact hb'.redisplay h

theorem InBounds.enter (hb : InBounds e) (h : fancyReadlineEnter fill e = some e') : InBounds e' := by
  unfold fancyReadlineEnter at h
  simp only [Option.bind_eq_bind] at h
  obtain ⟨indent, -, h⟩ := Option.bind_eq_some_iff.1 h
  obtain ⟨e₁, hadd, h⟩ := Option.bind_eq_some_iff.1 h
  obtain ⟨e₂, hspaces, h⟩ := Option.bind_eq_some_iff.1 h
  have hline : InBounds { e with
      curFrlInputLines := e.curFrlInputLines + 1
      curFrlLineIndent := indent } := ⟨hb.empty, hb.col_ge, hb.col_le, hb.offs_le⟩
  have hb₁ : InBounds e₁ := hline.addchar hadd
  -- the column goes back to the first one of the line, which the offset is never behind
  have hcol : InBounds { e₁ with curCursorCol := e₁.frlPromptLen + 2 } :=
    ⟨hb₁.empty, le_rfl, le_of_eq_of_le (sub_self _) hb₁.offs_nonneg, hb₁.offs_le⟩
  have hb₂ := hcol.addSpaces hspaces
  have hshown : InBounds (e₂.printf [10, 13]) := ⟨hb₂.empty, hb₂.col_ge, hb₂.col_le, hb₂.offs_le⟩
  exact hshown.redisplay h

theorem InBounds.press (hb : InBounds e) {key : Key} (h : press fill e key = some e') :
    InBounds e' := by
  cases key with
  | char c =>
    obtain ⟨e₁, hadd, hshow⟩ := Option.bind_eq_some_iff.1 h
    exact (hb.addchar hadd).redisplay hshow
  | enter => exact hb.enter h
  | backspace => exact hb.backspace h
  | left => exact hb.moveleft h
  | right => exact hb.moveright h

end Bounds

/-- What a key needs for the length and the string to stay together. -/
def KeySafe (e : Editor) : Key → Prop
  | .char _ => e.curCursorOffs = e.curFrlInputLen
  | .enter => e.curFrlInput ≠ none ∧ e.curCursorOffs = e.curFrlInputLen
  | .backspace => e.curCursorOffs = e.curFrlInputLen ∨ e.curCursorCol ≤ e.frlPromptLen + 2
  | .left => True
  | .right => True

section Safe
variable {fill : Editor → ℕ → Byte} {e e' : Editor}

theorem Printable.ne_zero (c : Printable) : c.val ≠ 0 := by
  intro h
  have hge := c.property.1
  rw [h] at hge
  exact absurd hge (by decide)

theorem not_sound_advance (hb : InBounds e) (hs : Sound e) (hmid : e.curCursorOffs ≠ e.curFrlInputLen)
    (n : ℕ) : ¬ Sound (e.advance e.curFrlInput (n + 1)) := by
  intro hadvance
  have hinput : e.curFrlInput ≠ none := fun hn => hmid (hb.offs_eq_of_null hn)
  obtain ⟨txt, htxt, hlen⟩ := exists_text hb hs
  have heq : txt.length = e.curFrlInputLen + (n + 1) := hadvance.length_eq hinput htxt
  omega

theorem char_safe_iff (hb : InBounds e) (hs : Sound e) {c : Byte} (hc : c ≠ 0) :
    (∃ e', (fancyReadlineAddchar fill e c).bind fancyReadlineRedisplay = some e' ∧ Sound e') ↔
      e.curCursorOffs = e.curFrlInputLen := by
  constructor
  · rintro ⟨e', hstep, hs'⟩
    by_contra hmid
    rw [addchar_mid hmid, Option.bind_some] at hstep
    exact not_sound_advance hb hs hmid 0 ((Sound.redisplay_iff hstep).1 hs')
  · intro hoffs
    obtain ⟨txt, hend⟩ := exists_atEnd hb hs hoffs
    obtain ⟨blk, hadd, hend'⟩ := hend.addchar fill hc
    obtain ⟨shown, out, hshow⟩ := exists_redisplay
      (fun hn => absurd hn (Option.some_ne_none blk)) hend'.text
    refine ⟨_, ?_, (Sound.redisplay_iff hshow).2 hend'.sound⟩
    rw [hadd, Option.bind_some, hshow]

theorem backspace_eq (hb : InBounds e) (hs : Sound e) (hcol : ¬ e.curCursorCol ≤ e.frlPromptLen + 2) :
    ∃ txt blk i shown out, e.text = some txt ∧ txt.length = e.curFrlInputLen ∧
      e.curCursorOffs = (i : ℕ) + 1 ∧ i < e.curFrlInputLen ∧ cstr blk = some (txt.take i) ∧
      fancyReadlineBackspace e = some { e with
        curFrlInput := some blk
        curCursorOffs := i
        curCursorCol := e.curCursorCol - 1
        curFrlInputLen := e.curFrlInputLen - 1
        doneDisplay := shown
        stdout := out } := by
  have hle := hb.col_le
  have hoffs := hb.offs_le
  obtain ⟨txt, htxt, hlen⟩ := exists_text hb hs
  obtain ⟨i, hi⟩ : ∃ i : ℕ, e.curCursorOffs - 1 = i := Int.eq_ofNat_of_zero_le (by omega)
  have hlt : i < e.curFrlInputLen := by omega
  have hinput : e.curFrlInput ≠ none := fun hn => by
    have hempty := hb.empty hn
    omega
  obtain ⟨blk, hblk⟩ := Option.ne_none_iff_exists'.1 hinput
  rw [Editor.text, hblk] at htxt
  obtain ⟨blk', hstore, hcut⟩ := store_zero htxt (lt_of_lt_of_eq hlt hlen.symm)
  obtain ⟨shown, out, hshow⟩ := exists_redisplay
    (e := Editor.printf { e with
      curFrlInput := some blk'
      curCursorOffs := e.curCursorOffs - 1
      curCursorCol := e.curCursorCol - 1
      curFrlInputLen := e.curFrlInputLen - 1 } [8, 32, 8])
    (fun hn => absurd hn (Option.some_ne_none blk')) hcut
  refine ⟨txt, blk', i, shown, out, ?_, hlen, by omega, hlt, hcut, ?_⟩
  · rw [Editor.text, hblk]
    exact htxt
  · unfold fancyReadlineBackspace
    rw [if_neg hcol, if_neg (by omega), hblk]
    simp only [Option.bind_eq_bind, Option.bind_some]
    rw [guard_bind (by omega), hi, Int.toNat_natCast, hstore, Option.bind_some, ← hi, hshow]
    rfl

theorem backspace_safe_iff (hb : InBounds e) (hs : Sound e) :
    (∃ e', fancyReadlineBackspace e = some e' ∧ Sound e') ↔
      e.curCursorOffs = e.curFrlInputLen ∨ e.curCursorCol ≤ e.frlPromptLen + 2 := by
  rcases le_or_gt e.curCursorCol (e.frlPromptLen + 2) with hcol | hcol
  · have hstay : fancyReadlineBackspace e = some e := if_pos hcol
    exact ⟨fun _ => Or.inr hcol, fun _ => ⟨e, hstay, hs⟩⟩
  · obtain ⟨txt, blk, i, shown, out, htxt, hlen, hoffs, hlt, hcut, hstep⟩ :=
      backspace_eq hb hs (not_le.2 hcol)
    have htake : (txt.take i).length = i := List.length_take_of_le (by omega)
    constructor
    · rintro ⟨e', hstep', hs'⟩
      rw [hstep] at hstep'
      rw [← Option.some.inj hstep'] at hs'
      have heq : (txt.take i).length = e.curFrlInputLen - 1 :=
        hs'.length_eq (Option.some_ne_none blk) hcut
      left
      omega
    · rintro (hend | hle)
      · refine ⟨_, hstep, sound_of_text hcut ?_⟩
        change (txt.take i).length = e.curFrlInputLen - 1
        omega
      · exact absurd hle (not_le.2 hcol)

theorem move_safe {e₁ : Editor} (hb : InBounds e) (hs : Sound e) (hinput : e₁.curFrlInput = e.curFrlInput)
    (hlen : e₁.curFrlInputLen = e.curFrlInputLen) :
    ∃ e', fancyReadlineRedisplay e₁ = some e' ∧ Sound e' := by
  obtain ⟨txt, htxt, -⟩ := exists_text hb hs
  have hs₁ : Sound e₁ := by
    unfold Sound
    rwa [hinput, hlen]
  have htxt₁ : e₁.text = some txt := by
    rw [← htxt, Editor.text, hinput]
  obtain ⟨shown, out, hshow⟩ := exists_redisplay (by rw [hinput, hlen]; exact hb.empty) htxt₁
  exact ⟨_, hshow, (Sound.redisplay_iff hshow).2 hs₁⟩

theorem moveleft_safe (hb : InBounds e) (hs : Sound e) :
    ∃ e', fancyReadlineMoveleft e = some e' ∧ Sound e' := by
  unfold fancyReadlineMoveleft
  split_ifs with hcol
  · exact ⟨e, rfl, hs⟩
  · exact move_safe hb hs rfl rfl

theorem moveright_safe (hb : InBounds e) (hs : Sound e) :
    ∃ e', fancyReadlineMoveright e = some e' ∧ Sound e' := by
  unfold fancyReadlineMoveright
  split_ifs with hend
  · exact ⟨e, rfl, hs⟩
  · exact move_safe hb hs rfl rfl

/-! ### The indentation of a new line -/

def lastLine (txt : List Byte) : List Byte := txt.rtakeWhile (· ≠ 10)

/-- How many spaces the last line of a text begins with. -/
def indentOf (txt : List Byte) : ℕ := ((lastLine txt).takeWhile (· = 32)).length

theorem lastLine_of_notMem {txt : List Byte} (h : (10 : Byte) ∉ txt) : lastLine txt = txt := by
  rw [lastLine, List.rtakeWhile_eq_self_iff]
  intro c hc
  exact decide_eq_true fun heq => h (heq ▸ hc)

theorem lastLine_append {q : List Byte} (p : List Byte) (h : (10 : Byte) ∉ q) :
    lastLine (p ++ 10 :: q) = q := by
  induction q using List.reverseRecOn with
  | nil => exact List.rtakeWhile_concat_neg _ _ 10 (by decide)
  | append_singleton q c ih =>
    rw [List.mem_append, List.mem_singleton, not_or] at h
    rw [lastLine, ← List.cons_append, ← List.append_assoc,
      List.rtakeWhile_concat_pos _ _ c (decide_eq_true (Ne.symm h.2))]
    exact congrArg (· ++ [c]) (ih h.1)

theorem calcIndent_eq {blk txt : List Byte} (h : cstr blk = some txt) :
    fancyReadlineCalcIndent (some blk) = some (indentOf txt) := by
  unfold fancyReadlineCalcIndent
  simp only [Option.bind_eq_bind, Option.bind_some, h]
  split
  · rename_i hnl
    rw [indentOf, lastLine_of_notMem (rindex_eq_none hnl), strspn_eq]
    simp only [List.mem_singleton]
  · rename_i i hnl
    obtain ⟨p, q, rfl, rfl, hq⟩ := rindex_eq_some hnl
    have hdrop : (p ++ 10 :: q).drop (p.length + 1) = q := by
      rw [List.append_cons, List.drop_left' (by rw [List.length_append, List.length_singleton])]
    rw [indentOf, lastLine_append p hq, hdrop, strspn_eq]
    simp only [List.mem_singleton]

section Enter
variable {n : ℕ} {input input' : Option (List Byte)}

def Editor.newLine (e : Editor) (n : ℕ) : Editor :=
  { e with curFrlInputLines := e.curFrlInputLines + 1, curFrlLineIndent := n }

def Editor.lineStart (e : Editor) : Editor := { e with curCursorCol := e.frlPromptLen + 2 }

theorem enter_eq (hindent : fancyReadlineCalcIndent e.curFrlInput = some n)
    (hadd : fancyReadlineAddchar fill (e.newLine n) 10 = some ((e.newLine n).advance input 1))
    (hspaces : addSpaces fill n ((e.newLine n).advance input 1).lineStart =
      some (((e.newLine n).advance input 1).lineStart.advance input' n)) :
    fancyReadlineEnter fill e = fancyReadlineRedisplay
      ((((e.newLine n).advance input 1).lineStart.advance input' n).printf [10, 13]) := by
  unfold fancyReadlineEnter
  simp only [Option.bind_eq_bind, hindent, Option.bind_some]
  exact (congrArg (Option.bind · _) hadd).trans (congrArg (Option.bind · _) hspaces)

def Editor.entered (e : Editor) (input : Option (List Byte)) (n : ℕ) : Editor :=
  (((e.newLine n).advance input 1).lineStart.advance input n).printf [10, 13]

theorem InBounds.entered (hb : InBounds e) (hinput : input ≠ none) (n : ℕ) :
    InBounds (e.entered input n) := by
  have hnonneg := hb.offs_nonneg
  have hle := hb.offs_le
  refine ⟨fun hnull => absurd hnull hinput, ?_, ?_, ?_⟩
  · exact Int.le_add_of_nonneg_right (Int.natCast_nonneg n)
  · change (e.frlPromptLen : ℤ) + 2 + n - (e.frlPromptLen + 2) ≤ e.curCursorOffs + (1 : ℕ) + n
    omega
  · change e.curCursorOffs + (1 : ℕ) + n ≤ ((e.curFrlInputLen + 1 + n : ℕ) : ℤ)
    omega

theorem AtEnd.enter_eq {txt : List Byte} (h : AtEnd e txt) (fill : Editor → ℕ → Byte)
    (hinput : e.curFrlInput ≠ none) :
    ∃ input, input ≠ none ∧
      fancyReadlineEnter fill e = fancyReadlineRedisplay (e.entered input (indentOf txt)) ∧
      AtEnd (e.entered input (indentOf txt)) (txt ++ 10 :: List.replicate (indentOf txt) 32) := by
  obtain ⟨blk, hblk⟩ := Option.ne_none_iff_exists'.1 hinput
  have hindent : fancyReadlineCalcIndent e.curFrlInput = some (indentOf txt) := by
    have htxt := h.text
    rw [Editor.text, hblk] at htxt
    rw [hblk, calcIndent_eq htxt]
  have hline : AtEnd (e.newLine (indentOf txt)) txt := ⟨h.text, h.len, h.offs⟩
  obtain ⟨blk₁, hadd, hend₁⟩ := hline.addchar fill (show (10 : Byte) ≠ 0 by decide)
  have hcol : AtEnd ((e.newLine (indentOf txt)).advance (some blk₁) 1).lineStart (txt ++ [10]) :=
    ⟨hend₁.text, hend₁.len, hend₁.offs⟩
  obtain ⟨input, hspaces, hnull, hend₂⟩ := hcol.addSpaces fill (indentOf txt)
  rw [List.append_assoc, List.singleton_append] at hend₂
  have hstep := FancyReadline.enter_eq hindent hadd hspaces
  exact ⟨input, fun hn => absurd (hnull hn) (Option.some_ne_none blk₁), hstep,
    ⟨hend₂.text, hend₂.len, hend₂.offs⟩⟩

theorem AtEnd.enter {txt : List Byte} (h : AtEnd e txt) (fill : Editor → ℕ → Byte)
    (hinput : e.curFrlInput ≠ none) :
    ∃ e', fancyReadlineEnter fill e = some e' ∧
      AtEnd e' (txt ++ 10 :: List.replicate (indentOf txt) 32) ∧
      e'.curFrlInputLines = e.curFrlInputLines + 1 ∧
      e'.curCursorCol = e.frlPromptLen + 2 + indentOf txt ∧
      e'.frlPromptLen = e.frlPromptLen := by
  obtain ⟨input, hsome, hstep, hend⟩ := h.enter_eq fill hinput
  obtain ⟨shown, out, hshow⟩ := exists_redisplay (fun hn => absurd hn hsome) hend.text
  exact ⟨_, hstep.trans hshow, ⟨hend.text, hend.len, hend.offs⟩, rfl, rfl, rfl⟩

theorem enter_null (hnull : e.curFrlInput = none) (fill : Editor → ℕ → Byte) :
    fancyReadlineEnter fill e = none := by
  unfold fancyReadlineEnter fancyReadlineCalcIndent
  rw [hnull]
  rfl

theorem enter_safe_iff (hb : InBounds e) (hs : Sound e) :
    (∃ e', fancyReadlineEnter fill e = some e' ∧ Sound e') ↔
      e.curFrlInput ≠ none ∧ e.curCursorOffs = e.curFrlInputLen := by
  constructor
  · rintro ⟨e', hstep, hs'⟩
    have hinput : e.curFrlInput ≠ none := by
      intro hnull
      rw [enter_null hnull] at hstep
      exact absurd hstep (Option.some_ne_none e').symm
    refine ⟨hinput, ?_⟩
    by_contra hmid
    obtain ⟨txt, htxt, -⟩ := exists_text hb hs
    obtain ⟨blk, hblk⟩ := Option.ne_none_iff_exists'.1 hinput
    have hindent : fancyReadlineCalcIndent e.curFrlInput = some (indentOf txt) := by
      rw [Editor.text, hblk] at htxt
      rw [hblk, calcIndent_eq htxt]
    -- one character per space and one for the newline are counted, none is stored
    have hmid' : ((e.newLine (indentOf txt)).advance e.curFrlInput 1).lineStart.curCursorOffs ≠
        ((e.newLine (indentOf txt)).advance e.curFrlInput 1).lineStart.curFrlInputLen := by
      intro heq
      exact hmid (by simpa [Editor.lineStart, Editor.advance, Editor.newLine] using heq)
    have hadd : fancyReadlineAddchar fill (e.newLine (indentOf txt)) 10 =
        some ((e.newLine (indentOf txt)).advance e.curFrlInput 1) :=
      addchar_mid (e := e.newLine (indentOf txt)) hmid 10
    rw [enter_eq hindent hadd (addSpaces_mid hmid' _)] at hstep
    have hcounted := (Sound.redisplay_iff hstep).1 hs'
    apply not_sound_advance hb hs hmid (indentOf txt)
    intro blk' hblk'
    have hlen := hcounted blk' hblk'
    rw [hlen]
    simp only [Editor.printf, Editor.lineStart, Editor.advance, Editor.newLine]
    congr 1
    omega
  · rintro ⟨hinput, hoffs⟩
    obtain ⟨txt, hend⟩ := exists_atEnd hb hs hoffs
    obtain ⟨e', hstep, hend', -⟩ := hend.enter fill hinput
    exact ⟨e', hstep, hend'.sound⟩

end Enter

theorem press_safe_iff (hb : InBounds e) (hs : Sound e) (key : Key) :
    (∃ e', press fill e key = some e' ∧ Sound e') ↔ KeySafe e key := by
  cases key with
  | char c => exact char_safe_iff hb hs c.ne_zero
  | enter => exact enter_safe_iff hb hs
  | backspace => exact backspace_safe_iff hb hs
  | left => exact iff_of_true (moveleft_safe hb hs) trivial
  | right => exact iff_of_true (moveright_safe hb hs) trivial

end Safe

theorem sound_start (prompt : List Byte) : Sound (startFancyReadline prompt) :=
  fun blk hblk => absurd hblk.symm (Option.some_ne_none blk)

/-- No key of a run makes the editor reach outside its buffer, follow a NULL input or lose count of the
string, exactly when every character and newline is typed at the end of a line that has an input already
(a newline) and every deletion happens at the end or in the first column. -/
theorem buffer_safe_iff (fill : Editor → ℕ → Byte) (prompt : List Byte) (keys : List Key) :
    Along (press fill) Sound (startFancyReadline prompt) keys ↔
      Meets (press fill) KeySafe (startFancyReadline prompt) keys :=
  along_iff_meets (I := InBounds) (fun _ key hb hs => press_safe_iff hb hs key)
    (fun _ _ _ hb _ hstep _ => hb.press hstep) (inBounds_start prompt) (sound_start prompt) keys

/-- `ENTER` before any character follows the NULL input; `BACKSPACE` behind characters that were
counted and not stored writes outside the block. -/
theorem newline_first_faults :
    ¬ Along (press fun _ _ => 0) Sound (startFancyReadline [63]) [.enter] ∧
      ¬ Along (press fun _ _ => 0) Sound (startFancyReadline [63])
        [.char ⟨97, by decide⟩, .left, .char ⟨98, by decide⟩, .char ⟨98, by decide⟩,
          .char ⟨98, by decide⟩, .backspace] := by
  constructor
  · intro h
    obtain ⟨e, hrun, -⟩ := h.run
    exact Option.some_ne_none e (hrun.symm.trans rfl)
  · intro h
    obtain ⟨e, hrun, -⟩ := h.run
    exact Option.some_ne_none e (hrun.symm.trans rfl)

end MutantC.FancyReadline
