import MutantC.FancyReadline.ReadlineDefs
import MutantC.Lib.Iteration

/-! The input buffer of the editor: what each key does to the text, the recorded length and the cursor,
and exactly which keys keep them together. -/

namespace MutantC.FancyReadline
open CBuffer Iteration

/-- The text of an input, empty for NULL. -/
def textOf : Option (List Byte) → Option (List Byte)
  | none => some []
  | some blk => cstr blk

abbrev Editor.text (e : Editor) : Option (List Byte) := textOf e.curFrlInput

def Sound (e : Editor) : Prop := ∀ blk, e.curFrlInput = some blk → strlen blk = some e.curFrlInputLen

structure InBounds (e : Editor) : Prop where
  empty : e.curFrlInput = none → e.curFrlInputLen = 0
  col_ge : (e.frlPromptLen : ℤ) + 2 ≤ e.curCursorCol
  col_le : e.curCursorCol - (e.frlPromptLen + 2) ≤ e.curCursorOffs
  offs_le : e.curCursorOffs ≤ e.curFrlInputLen

theorem inBounds_start (prompt : List Byte) : InBounds (startFancyReadline prompt) :=
  ⟨fun _ => rfl, le_rfl, Int.sub_nonpos_of_le le_rfl, le_rfl⟩

theorem InBounds.offs_nonneg {e : Editor} (h : InBounds e) : 0 ≤ e.curCursorOffs :=
  le_trans (Int.sub_nonneg_of_le h.col_ge) h.col_le

theorem InBounds.offs_eq_of_null {e : Editor} (h : InBounds e) (hnull : e.curFrlInput = none) :
    e.curCursorOffs = e.curFrlInputLen := by
  have hnonneg := h.offs_nonneg
  have hle := h.offs_le
  rw [h.empty hnull] at hle ⊢
  exact le_antisymm hle hnonneg

theorem exists_text {e : Editor} (hb : InBounds e) (hs : Sound e) :
    ∃ txt, e.text = some txt ∧ txt.length = e.curFrlInputLen := by
  unfold Editor.text
  cases hinput : e.curFrlInput with
  | none => exact ⟨[], rfl, (hb.empty hinput).symm⟩
  | some blk => exact Option.map_eq_some_iff.1 (hs blk hinput)

theorem sound_of_text {e : Editor} {txt : List Byte} (htxt : e.text = some txt)
    (hlen : txt.length = e.curFrlInputLen) : Sound e := by
  intro blk hblk
  rw [Editor.text, hblk] at htxt
  rw [← hlen]
  exact strlen_eq htxt

theorem Sound.length_eq {e : Editor} {txt : List Byte} (hs : Sound e) (hinput : e.curFrlInput ≠ none)
    (htxt : e.text = some txt) : txt.length = e.curFrlInputLen := by
  obtain ⟨blk, hblk⟩ := Option.ne_none_iff_exists'.1 hinput
  rw [Editor.text, hblk] at htxt
  exact Option.some.inj ((strlen_eq htxt).symm.trans (hs blk hblk))

section Display
variable {e e' : Editor}

theorem redisplay_some (h : fancyReadlineRedisplay e = some e') :
    ∃ shown out, e' = { e with doneDisplay := shown, stdout := out } := by
  unfold fancyReadlineRedisplay Editor.printf at h
  simp only [Option.bind_eq_bind] at h
  split_ifs at h
  · exact ⟨_, _, (Option.some.inj h).symm⟩
  · obtain ⟨blk, -, h⟩ := Option.bind_eq_some_iff.1 h
    obtain ⟨txt, -, h⟩ := Option.bind_eq_some_iff.1 h
    exact ⟨_, _, (Option.some.inj h).symm⟩

theorem exists_redisplay {txt : List Byte} (hnull : e.curFrlInput = none → e.curFrlInputLen = 0)
    (htxt : e.text = some txt) :
    ∃ shown out, fancyReadlineRedisplay e = some { e with doneDisplay := shown, stdout := out } := by
  unfold fancyReadlineRedisplay Editor.printf
  simp only [Option.bind_eq_bind]
  split_ifs with hlen
  · exact ⟨_, _, rfl⟩
  · unfold Editor.text textOf at htxt
    cases hinput : e.curFrlInput with
    | none => exact absurd (hnull hinput) hlen
    | some blk =>
      rw [hinput] at htxt
      rw [Option.bind_some, show cstr blk = some txt from htxt]
      exact ⟨_, _, rfl⟩

theorem Sound.redisplay_iff (h : fancyReadlineRedisplay e = some e') : Sound e' ↔ Sound e := by
  obtain ⟨shown, out, rfl⟩ := redisplay_some h
  exact Iff.rfl

theorem InBounds.redisplay (hb : InBounds e) (h : fancyReadlineRedisplay e = some e') :
    InBounds e' := by
  obtain ⟨shown, out, rfl⟩ := redisplay_some h
  exact ⟨hb.empty, hb.col_ge, hb.col_le, hb.offs_le⟩

end Display

def Editor.advance (e : Editor) (input : Option (List Byte)) (n : ℕ) : Editor :=
  { e with
    curFrlInput := input
    curFrlInputLen := e.curFrlInputLen + n
    curCursorOffs := e.curCursorOffs + n
    curCursorCol := e.curCursorCol + n }

@[simp] theorem advance_curFrlInput (e : Editor) (input : Option (List Byte)) (n : ℕ) :
    (e.advance input n).curFrlInput = input := rfl

theorem advance_zero (e : Editor) : e.advance e.curFrlInput 0 = e := by
  simp [Editor.advance]

theorem advance_advance (e : Editor) (i j : Option (List Byte)) (m n : ℕ) :
    (e.advance i m).advance j n = e.advance j (m + n) := by
  simp only [Editor.advance, Nat.cast_add, add_assoc]

theorem InBounds.advance {e : Editor} (hb : InBounds e) {input : Option (List Byte)} {n : ℕ}
    (hinput : input = none → e.curFrlInputLen + n = 0) : InBounds (e.advance input n) :=
  ⟨hinput, le_trans hb.col_ge (Int.le_add_of_nonneg_right (Int.natCast_nonneg n)),
    by simpa only [Editor.advance, add_sub_right_comm, add_le_add_iff_right] using hb.col_le,
    by simpa only [Editor.advance, Nat.cast_add, add_le_add_iff_right] using hb.offs_le⟩

structure AtEnd (e : Editor) (txt : List Byte) : Prop where
  text : e.text = some txt
  len : txt.length = e.curFrlInputLen
  offs : e.curCursorOffs = e.curFrlInputLen

theorem AtEnd.sound {e : Editor} {txt : List Byte} (h : AtEnd e txt) : Sound e :=
  sound_of_text h.text h.len

theorem exists_atEnd {e : Editor} (hb : InBounds e) (hs : Sound e)
    (hoffs : e.curCursorOffs = e.curFrlInputLen) : ∃ txt, AtEnd e txt := by
  obtain ⟨txt, htxt, hlen⟩ := exists_text hb hs
  exact ⟨txt, htxt, hlen, hoffs⟩

section Insert
variable {fill : Editor → ℕ → Byte} {e : Editor} {txt : List Byte}

theorem AtEnd.addchar (h : AtEnd e txt) (fill : Editor → ℕ → Byte) {c : Byte} (hc : c ≠ 0) :
    ∃ blk, fancyReadlineAddchar fill e c = some (e.advance (some blk) 1) ∧
      AtEnd (e.advance (some blk) 1) (txt ++ [c]) := by
  have hblk : e.curFrlInputLen ≤ (e.curFrlInput.getD []).length ∧
      (e.curFrlInput.getD []).take e.curFrlInputLen = txt ∧ 0 ∉ txt := by
    have htxt := h.text
    rw [← h.len]
    unfold Editor.text at htxt
    cases hinput : e.curFrlInput with
    | none =>
      rw [hinput] at htxt
      obtain rfl := Option.some.inj htxt
      simp
    | some blk =>
      rw [hinput] at htxt
      obtain ⟨hzero, rest, rfl⟩ := cstr_some htxt
      exact ⟨by simp, by simp, hzero⟩
  obtain ⟨hle, htake, hzero⟩ := hblk
  have hstore := store_realloc hle (fill e) c
  rw [htake] at hstore
  refine ⟨txt ++ [c, 0], ?_, ?_, ?_, ?_⟩
  · unfold fancyReadlineAddchar
    rw [if_pos h.offs]
    obtain ⟨b, hb, hb'⟩ := Option.bind_eq_some_iff.1 hstore
    simp only [Option.bind_eq_bind, hb, hb', Option.bind_some, Editor.advance, Nat.cast_one]
  · have hnot : (0 : Byte) ∉ txt ++ [c] := zero_notMem_snoc hzero hc
    have hcstr := cstr_append hnot []
    rwa [List.append_assoc] at hcstr
  · rw [List.length_append, h.len]
    rfl
  · exact congrArg (· + ((1 : ℕ) : ℤ)) h.offs

theorem addchar_mid (hmid : e.curCursorOffs ≠ e.curFrlInputLen) (c : Byte) :
    fancyReadlineAddchar fill e c = some (e.advance e.curFrlInput 1) := by
  unfold fancyReadlineAddchar
  rw [if_neg hmid]
  rfl

theorem AtEnd.addSpaces (h : AtEnd e txt) (fill : Editor → ℕ → Byte) (n : ℕ) :
    ∃ input, addSpaces fill n e = some (e.advance input n) ∧ (input = none → e.curFrlInput = none) ∧
      AtEnd (e.advance input n) (txt ++ List.replicate n 32) := by
  induction n generalizing e txt with
  | zero =>
    refine ⟨e.curFrlInput, ?_, id, ?_⟩
    · rw [advance_zero]
      rfl
    · rwa [advance_zero, List.replicate_zero, List.append_nil]
  | succ n ih =>
    obtain ⟨blk, hadd, hend⟩ := h.addchar fill (show (32 : Byte) ≠ 0 by decide)
    obtain ⟨input, hrest, hnull, hend'⟩ := ih hend
    rw [advance_advance, Nat.add_comm] at hrest hend'
    refine ⟨input, ?_, fun hn => absurd (hnull hn) (Option.some_ne_none blk), ?_⟩
    · rw [FancyReadline.addSpaces, hadd, Option.bind_some, hrest]
    · rwa [List.append_assoc] at hend'

theorem addSpaces_mid (hmid : e.curCursorOffs ≠ e.curFrlInputLen) (n : ℕ) :
    addSpaces fill n e = some (e.advance e.curFrlInput n) := by
  induction n generalizing e with
  | zero =>
    rw [advance_zero]
    rfl
  | succ n ih =>
    rw [addSpaces, addchar_mid hmid, Option.bind_some, ih, advance_curFrlInput, advance_advance,
      Nat.add_comm]
    simp only [Editor.advance, Nat.cast_add, ne_eq, add_left_inj]
    exact hmid

end Insert

/-! ### The bulk insert -/

section Bulk
variable {fill : Editor → ℕ → Byte} {e e' : Editor} {txt s : List Byte}

theorem AtEnd.addchars (h : AtEnd e txt) (fill : Editor → ℕ → Byte) (hs : 0 ∉ s) :
    ∃ input, run (fancyReadlineAddchar fill) e s = some (e.advance input s.length) ∧
      AtEnd (e.advance input s.length) (txt ++ s) := by
  induction s generalizing e txt with
  | nil =>
    refine ⟨e.curFrlInput, ?_, ?_⟩
    · exact congrArg some (advance_zero e).symm
    · rwa [List.length_nil, advance_zero, List.append_nil]
  | cons c s ih =>
    obtain ⟨hc, hs'⟩ := not_or.1 (mt List.mem_cons.2 hs)
    obtain ⟨blk, hadd, hend⟩ := h.addchar fill (Ne.symm hc)
    obtain ⟨input, hrest, hend'⟩ := ih hend hs'
    rw [advance_advance, Nat.add_comm] at hrest hend'
    refine ⟨input, ?_, ?_⟩
    · rw [run, hadd, Option.bind_some, hrest, List.length_cons]
    · rwa [List.append_assoc] at hend'

theorem addstr_some (h : fancyReadlineAddstr fill e s = some e') :
    ∃ blk, e' = { e.advance (some blk) s.length with
      curFrlInputLen := e.curFrlInputLen + s.length + 1 } := by
  unfold fancyReadlineAddstr at h
  simp only [Option.bind_eq_bind] at h
  obtain ⟨blk, -, h⟩ := Option.bind_eq_some_iff.1 h
  exact ⟨blk, (Option.some.inj h).symm⟩

/-- `strncpy` is given the size of the whole block, and so writes behind it unless the input is empty. -/
theorem addstr_some_iff : (∃ e', fancyReadlineAddstr fill e s = some e') ↔ e.curFrlInputLen = 0 := by
  have hroom : (∃ blk', strncpy (realloc (e.curFrlInput.getD []) (e.curFrlInputLen + s.length + 1) (fill e))
      e.curFrlInputLen s (e.curFrlInputLen + s.length + 1) = some blk') ↔ _ := strncpy_some_iff
  rw [length_realloc] at hroom
  have hzero : e.curFrlInputLen = 0 ↔
      e.curFrlInputLen + (e.curFrlInputLen + s.length + 1) ≤ e.curFrlInputLen + s.length + 1 := by
    omega
  rw [hzero, ← hroom]
  unfold fancyReadlineAddstr
  simp only [Option.bind_eq_bind]
  constructor
  · rintro ⟨e', h⟩
    obtain ⟨blk, hblk, -⟩ := Option.bind_eq_some_iff.1 h
    exact ⟨blk, hblk⟩
  · rintro ⟨blk, hblk⟩
    rw [hblk]
    exact ⟨_, rfl⟩

/-- The bulk insert leaves what inserting the characters one after another leaves, with the cursor at
the end. -/
def BulkAgrees (fill : Editor → ℕ → Byte) (e : Editor) (s : List Byte) : Prop :=
  ∃ e₁ e₂, fancyReadlineAddstr fill e s = some e₁ ∧ run (fancyReadlineAddchar fill) e s = some e₂ ∧
    e₁.text = e₂.text ∧ e₁.curFrlInputLen = e₂.curFrlInputLen ∧ e₁.curCursorOffs = e₂.curCursorOffs ∧
    e₁.curCursorCol = e₂.curCursorCol ∧ e₁.curCursorOffs = e₁.curFrlInputLen

/-- It never does: one counts the terminator and the other does not. -/
theorem bulk_insert_drifts (fill : Editor → ℕ → Byte) (h : AtEnd e txt) (hs : 0 ∉ s) :
    ¬ BulkAgrees fill e s := by
  rintro ⟨e₁, e₂, hbulk, hsingle, -, hlen, -, -, -⟩
  obtain ⟨blk, rfl⟩ := addstr_some hbulk
  obtain ⟨input, hrun, -⟩ := h.addchars fill hs
  obtain rfl := Option.some.inj (hrun.symm.trans hsingle)
  have hdrift : e.curFrlInputLen + s.length + 1 = e.curFrlInputLen + s.length := hlen
  exact Nat.succ_ne_self _ hdrift

/-- `addstr("a")` behind a typed `h`. -/
theorem bulk_insert_drifts_typed :
    ¬ BulkAgrees (fun _ _ => 0) ((startFancyReadline [63]).advance (some [104, 0]) 1) [97] := by
  have hend : AtEnd ((startFancyReadline [63]).advance (some [104, 0]) 1) [104] :=
    ⟨by decide, rfl, rfl⟩
  exact bulk_insert_drifts (fun _ _ => 0) hend (by decide)

/-- After `addstr("hi")` on a new line the next character is not stored. -/
theorem bulk_insert_not_appending :
    ¬ BulkAgrees (fun _ _ => 0) (startFancyReadline [63]) [104, 105] ∧
      (((fancyReadlineAddstr (fun _ _ => 0) (startFancyReadline [63]) [104, 105]).bind fun e =>
        fancyReadlineAddchar (fun _ _ => 0) e 33).bind Editor.text) = some [104, 105] := by
  refine ⟨?_, by decide⟩
  rintro ⟨e₁, e₂, hbulk, hsingle, -, hlen, -⟩
  have hbulk' : (fancyReadlineAddstr (fun _ _ => 0) (startFancyReadline [63]) [104, 105]).map
      Editor.curFrlInputLen = some 3 := by decide
  have hsingle' : (run (fancyReadlineAddchar fun _ _ => 0) (startFancyReadline [63]) [104, 105]).map
      Editor.curFrlInputLen = some 2 := by decide
  rw [hbulk, Option.map_some] at hbulk'
  rw [hsingle, Option.map_some] at hsingle'
  have heq := hbulk'.symm.trans ((congrArg some hlen).trans hsingle')
  exact absurd heq (by decide)

end Bulk

end MutantC.FancyReadline
