import MutantC.FancyReadline.ReadlineDisplay

/-! Key sequences in the input: which of them the calls of `fancy_readline_handle_raw_char` take whole. -/

namespace MutantC.FancyReadline
open CBuffer Decimal Iteration

/-- The bytes between `ESC [` and the final byte of a key sequence: digits and `;`. -/
def IsParam (b : Byte) : Prop := IsDigit b ∨ b = 59

instance : DecidablePred IsParam := fun b => inferInstanceAs (Decidable (IsDigit b ∨ b = 59))

/-- What a terminal sends for a key. The final byte is any that is no parameter. -/
inductive KeySeq
  | char (c : Printable)
  | enter
  | backspace
  | csi (params : List { b : Byte // IsParam b }) (final : { b : Byte // ¬ IsParam b })
  | ss3 (final : Byte)

namespace KeySeq

def bytes : KeySeq → List Byte
  | .char c => [c.val]
  | .enter => [13]
  | .backspace => [127]
  | .csi params final => [27, 91] ++ params.map Subtype.val ++ [final.val]
  | .ss3 final => [27, 79, final]

def added (txt : List Byte) : KeySeq → List Byte
  | .char c => [c.val]
  | .enter => 10 :: List.replicate (indentOf txt) 32
  | _ => []

def Plain : KeySeq → Prop
  | .csi params _ => params = []
  | _ => True

def press (fill : Editor → ℕ → Byte) (e : Editor) : KeySeq → Option Editor
  | .char c => FancyReadline.press fill e (.char c)
  | .enter => FancyReadline.press fill e .enter
  | .backspace => FancyReadline.press fill e .backspace
  | .csi _ final => fancyReadlineHandleLogicalChar fill e (escKey 91 final.val) 27
  | .ss3 final => fancyReadlineHandleLogicalChar fill e (escKey 79 final) 27

end KeySeq

/-- The text keeps a beginning of itself and gets nothing but a beginning of what the key adds. -/
def Adds (k : KeySeq) (e e' : Editor) : Prop :=
  ∃ txt kept new, e.text = some txt ∧ e'.text = some (kept ++ new) ∧ kept <+: txt ∧ new <+: k.added txt

/-- A call that takes the bytes of its key and no others, and goes on. -/
structure Whole (k : KeySeq) (call : Call) : Prop where
  consumed : call.input = k.bytes ++ call.rest
  goesOn : call.result = true
  adds : Adds k call.before call.after

def KeysWhole (fill : Editor → ℕ → Byte) (seqBuf : Editor → Byte × Byte) (prompt : List Byte)
    (keys : List KeySeq) : Prop :=
  ∃ calls, doFancyReadline fill seqBuf prompt (keys.flatMap KeySeq.bytes) = some calls ∧
    List.Forall₂ Whole keys calls

/-- What a key needs to be taken whole: a sequence no parameters, `ENTER` an input, and `BACKSPACE`
behind the first column the cursor inside the block. -/
def TakenWhole (e : Editor) : KeySeq → Prop
  | .char _ => True
  | .enter => e.curFrlInput ≠ none
  | .backspace => ¬ e.curCursorCol ≤ e.frlPromptLen + 2 →
      ∀ blk, e.curFrlInput = some blk → e.curCursorOffs - 1 < blk.length
  | .csi params _ => params = []
  | .ss3 _ => True

/-! ### The editor -/

/-- The text is never longer than it is counted. -/
structure Tracked (e : Editor) (txt : List Byte) : Prop where
  bounds : InBounds e
  text : e.text = some txt
  len : txt.length ≤ e.curFrlInputLen

theorem tracked_start (prompt : List Byte) : Tracked (startFancyReadline prompt) [] :=
  ⟨inBounds_start prompt, rfl, le_rfl⟩

section Editor
variable {fill : Editor → ℕ → Byte} {e : Editor} {txt : List Byte}

theorem Tracked.shown (h : Tracked e txt) : ∃ e', fancyReadlineRedisplay e = some e' ∧ Tracked e' txt := by
  obtain ⟨shown, out, hshow⟩ := exists_redisplay h.bounds.empty h.text
  exact ⟨_, hshow, h.bounds.redisplay hshow, h.text, h.len⟩

def Passes (r : Option Editor) (txt new : List Byte) : Prop :=
  ∃ e' kept new', r = some e' ∧ Tracked e' (kept ++ new') ∧ kept <+: txt ∧ new' <+: new

theorem Tracked.passes_self (h : Tracked e txt) (new : List Byte) : Passes (some e) txt new :=
  ⟨e, txt, [], rfl, (List.append_nil txt).symm ▸ h, List.prefix_rfl, List.nil_prefix⟩

theorem Tracked.passes {kept new new' : List Byte} (h : Tracked e (kept ++ new')) (hkept : kept <+: txt)
    (hnew : new' <+: new) : Passes (fancyReadlineRedisplay e) txt new := by
  obtain ⟨e', hshow, h'⟩ := h.shown
  exact ⟨e', kept, new', hshow, h', hkept, hnew⟩

theorem Tracked.passes_same (h : Tracked e txt) (new : List Byte) :
    Passes (fancyReadlineRedisplay e) txt new :=
  Tracked.passes ((List.append_nil txt).symm ▸ h) List.prefix_rfl List.nil_prefix

theorem Tracked.char (h : Tracked e txt) (fill : Editor → ℕ → Byte) (c : Printable) :
    Passes (press fill e (.char c)) txt [c.val] := by
  change Passes ((fancyReadlineAddchar fill e c.val).bind fancyReadlineRedisplay) txt _
  by_cases hstores : Stores e txt
  · have hend : AtEnd e txt := ⟨h.text, hstores.2, hstores.1⟩
    obtain ⟨blk, hadd, hend'⟩ := hend.addchar fill c.ne_zero
    rw [hadd, Option.bind_some]
    have h' : Tracked (e.advance (some blk) 1) (txt ++ [c.val]) :=
      ⟨h.bounds.addchar hadd, hend'.text, hend'.len.le⟩
    exact h'.passes List.prefix_rfl List.prefix_rfl
  · obtain ⟨blk, hadd, hblk⟩ := addchar_unstored h.bounds h.text h.len hstores fill c.val
    rw [hadd, Option.bind_some]
    have h' : Tracked (e.advance (some blk) 1) txt :=
      ⟨h.bounds.addchar hadd, hblk, Nat.le_succ_of_le h.len⟩
    exact h'.passes_same _

theorem Tracked.enter (h : Tracked e txt) (fill : Editor → ℕ → Byte) (hinput : e.curFrlInput ≠ none) :
    Passes (press fill e .enter) txt (10 :: List.replicate (indentOf txt) 32) := by
  change Passes (fancyReadlineEnter fill e) txt _
  by_cases hstores : Stores e txt
  · have hend : AtEnd e txt := ⟨h.text, hstores.2, hstores.1⟩
    obtain ⟨input, hsome, hstep, hend'⟩ := hend.enter_eq fill hinput
    rw [hstep]
    have h' : Tracked (e.entered input (indentOf txt)) (txt ++ 10 :: List.replicate (indentOf txt) 32) :=
      ⟨h.bounds.entered hsome _, hend'.text, hend'.len.le⟩
    exact h'.passes List.prefix_rfl List.prefix_rfl
  · obtain ⟨blk, hblk⟩ := Option.ne_none_iff_exists'.1 hinput
    obtain ⟨input, hsome, hstep, htext⟩ := enter_unstored h.bounds h.text h.len hblk hstores fill
    rw [hstep]
    have hlen : txt.length ≤ e.curFrlInputLen + 1 + indentOf txt := by
      have hle := h.len
      omega
    have h' : Tracked (e.entered input (indentOf txt)) txt :=
      ⟨h.bounds.entered hsome _, htext, hlen⟩
    exact h'.passes_same _

theorem Tracked.erased {blk : List Byte} (h : Tracked e txt) (hcol : ¬ e.curCursorCol ≤ e.frlPromptLen + 2)
    (hblk : e.curFrlInput = some blk) :
    Tracked (e.erased (blk.set (e.curCursorOffs - 1).toNat 0)) (txt.take (e.curCursorOffs - 1).toNat) := by
  have htxt := h.text
  rw [Editor.text, hblk] at htxt
  have hoffs := h.bounds.offs_le
  have hlen := h.len
  refine ⟨h.bounds.erased hcol _, cstr_set_zero htxt _, ?_⟩
  change (txt.take (e.curCursorOffs - 1).toNat).length ≤ e.curFrlInputLen - 1
  rw [List.length_take]
  omega

theorem Tracked.input_of_col (h : Tracked e txt) (hcol : ¬ e.curCursorCol ≤ e.frlPromptLen + 2) :
    e.curFrlInput ≠ none := by
  intro hnull
  have hempty := h.bounds.empty hnull
  have hle := h.bounds.col_le
  have hoffs := h.bounds.offs_le
  omega

theorem Tracked.backspace (h : Tracked e txt) (fill : Editor → ℕ → Byte) :
    (TakenWhole e .backspace → Passes (press fill e .backspace) txt []) ∧
      (¬ TakenWhole e .backspace → press fill e .backspace = none) := by
  change (_ → Passes (fancyReadlineBackspace e) txt []) ∧ (_ → fancyReadlineBackspace e = none)
  by_cases hcol : e.curCursorCol ≤ e.frlPromptLen + 2
  · have hstay : fancyReadlineBackspace e = some e := if_pos hcol
    rw [hstay]
    exact ⟨fun _ => h.passes_self [], fun hno => absurd (fun hcol' => absurd hcol hcol') hno⟩
  · obtain ⟨blk, hblk⟩ := Option.ne_none_iff_exists'.1 (h.input_of_col hcol)
    have hwhole : TakenWhole e .backspace ↔ e.curCursorOffs - 1 < blk.length := by
      refine ⟨fun hroom => hroom hcol blk hblk, fun hroom _ blk' hblk' => ?_⟩
      obtain rfl := Option.some.inj (hblk.symm.trans hblk')
      exact hroom
    rw [backspace_step h.bounds hcol hblk, hwhole]
    constructor
    · intro hroom
      rw [if_pos hroom]
      have h' := h.erased hcol hblk
      rw [← List.append_nil (txt.take _)] at h'
      exact h'.passes (List.take_prefix _ _) List.prefix_rfl
    · intro hroom
      exact if_neg hroom

theorem Tracked.shift (h : Tracked e txt) {d : ℤ} (hge : (e.frlPromptLen : ℤ) + 2 ≤ e.curCursorCol + d)
    (hle : e.curCursorOffs + d ≤ e.curFrlInputLen) (out : List Byte) :
    Tracked ((e.shift d).printf out) txt :=
  ⟨h.bounds.shift hge hle out, h.text, h.len⟩

theorem Tracked.left (h : Tracked e txt) : Passes (fancyReadlineMoveleft e) txt [] := by
  unfold fancyReadlineMoveleft
  split_ifs with hcol
  · exact h.passes_self []
  · have hoffs := h.bounds.offs_le
    have h' : Tracked ((e.shift (-1)).printf [8]) txt := h.shift (by omega) (by omega) _
    exact h'.passes_same []

theorem Tracked.right (h : Tracked e txt) : Passes (fancyReadlineMoveright e) txt [] := by
  unfold fancyReadlineMoveright
  split_ifs with hend
  · exact h.passes_self []
  · have hge := h.bounds.col_ge
    have hlt := lt_of_le_of_ne h.bounds.offs_le hend
    have h' : Tracked ((e.shift 1).printf [27, 91, 49, 67]) txt := h.shift (by omega) hlt _
    exact h'.passes_same []

theorem Tracked.esc (h : Tracked e txt) (fill : Editor → ℕ → Byte) (b₀ b₁ : Byte) :
    Passes (fancyReadlineHandleLogicalChar fill e (escKey b₀ b₁) 27) txt [] := by
  have hkey : escKey b₀ b₁ ∈ [LogicalKey.invalid, .up, .down, .right, .left, .home, .end, .unknown] := by
    unfold escKey
    split_ifs <;> simp
  simp only [List.mem_cons, List.not_mem_nil, or_false] at hkey
  rcases hkey with hkey | hkey | hkey | hkey | hkey | hkey | hkey | hkey <;> rw [hkey]
  case inr.inr.inr.inl => exact h.right
  case inr.inr.inr.inr.inl => exact h.left
  all_goals exact h.passes_self []

theorem Tracked.press (h : Tracked e txt) (fill : Editor → ℕ → Byte) (k : KeySeq) :
    (TakenWhole e k → Passes (k.press fill e) txt (k.added txt)) ∧
      (k.Plain → ¬ TakenWhole e k → k.press fill e = none) := by
  cases k with
  | char c => exact ⟨fun _ => h.char fill c, fun _ hno => absurd trivial hno⟩
  | enter =>
    refine ⟨fun hinput => h.enter fill hinput, fun _ hno => ?_⟩
    exact enter_null (not_not.1 hno) fill
  | backspace => exact ⟨(h.backspace fill).1, fun _ => (h.backspace fill).2⟩
  | csi params final => exact ⟨fun _ => h.esc fill _ _, fun hplain hno => absurd hplain hno⟩
  | ss3 final => exact ⟨fun _ => h.esc fill _ _, fun _ hno => absurd trivial hno⟩

end Editor

/-! ### The calls -/

section Calls
variable {fill : Editor → ℕ → Byte} {seqBuf : Editor → Byte × Byte} {e : Editor} {txt rest : List Byte}

theorem KeySeq.exists_cons (k : KeySeq) : ∃ c w, k.bytes = c :: w := by
  cases k <;> exact ⟨_, _, rfl⟩

theorem escKey_final {final : Byte} (h : ¬ IsParam final) : escKey 91 final ≠ .invalid := by
  have hdigit : ¬ (48 ≤ final ∧ final ≤ 57) := fun hdigit => h (Or.inl hdigit)
  unfold escKey
  rw [if_pos rfl, if_neg hdigit]
  split_ifs <;> exact LogicalKey.noConfusion

theorem escKey_ss3 (final : Byte) : escKey 79 final ≠ .invalid := by
  unfold escKey
  rw [if_neg (by decide), if_pos rfl]
  split_ifs <;> exact LogicalKey.noConfusion

theorem handleRawChar_esc (b₀ b₁ : Byte) :
    fancyReadlineHandleRawChar fill seqBuf e 27 (b₀ :: b₁ :: rest) =
      if escKey b₀ b₁ = .invalid then some (false, rest, e)
      else (fancyReadlineHandleLogicalChar fill e (escKey b₀ b₁) 27).map fun e => (true, rest, e) := rfl

theorem handleRawChar_printable (c : Printable) :
    fancyReadlineHandleRawChar fill seqBuf e c.val rest =
      (press fill e (.char c)).map fun e => (true, rest, e) := by
  obtain ⟨c, hlo, hhi⟩ := c
  have hne : ∀ b : Byte, ¬ (32 ≤ b ∧ b ≤ 126) → c ≠ b := fun b hb heq => hb (heq ▸ ⟨hlo, hhi⟩)
  unfold fancyReadlineHandleRawChar
  rw [if_neg (hne 3 (by decide)), if_neg (hne 4 (by decide)), if_neg (hne 27 (by decide)),
    if_neg (hne 13 (by decide)), if_neg (hne 127 (by decide)), if_pos ⟨hlo, hhi⟩]
  rfl

theorem KeySeq.handleRawChar {k : KeySeq} (hk : k.Plain) {c : Byte} {w : List Byte} (hbytes : k.bytes = c :: w) :
    fancyReadlineHandleRawChar fill seqBuf e c (w ++ rest) =
      (k.press fill e).map fun e => (true, rest, e) := by
  cases k with
  | char c' =>
    obtain ⟨rfl, rfl⟩ := List.cons.inj hbytes
    exact handleRawChar_printable c'
  | enter =>
    obtain ⟨rfl, rfl⟩ := List.cons.inj hbytes
    rfl
  | backspace =>
    obtain ⟨rfl, rfl⟩ := List.cons.inj hbytes
    rfl
  | csi params final =>
    obtain rfl : params = [] := hk
    obtain ⟨rfl, rfl⟩ := List.cons.inj hbytes
    exact (handleRawChar_esc 91 final.val).trans (if_neg (escKey_final final.property))
  | ss3 final =>
    obtain ⟨rfl, rfl⟩ := List.cons.inj hbytes
    exact (handleRawChar_esc 79 final).trans (if_neg (escKey_ss3 final))

theorem handleRawChar_params {p : Byte} (hp : IsParam p) :
    ∃ result, fancyReadlineHandleRawChar fill seqBuf e 27 (91 :: p :: rest) = some (result, rest, e) := by
  rw [handleRawChar_esc]
  rcases hp with hdigit | rfl
  · have hkey : escKey 91 p = .invalid := (if_pos rfl).trans (if_pos hdigit)
    exact ⟨false, if_pos hkey⟩
  · exact ⟨true, rfl⟩

theorem readLoop_cons (c : Byte) (n : ℕ) : readLoop fill seqBuf (n + 1) e (c :: rest) =
    (fancyReadlineHandleRawChar fill seqBuf e c rest).bind fun r =>
      (if r.1 then readLoop fill seqBuf n r.2.2 r.2.1 else some []).map fun calls =>
        ⟨c :: rest, e, r.1, r.2.1, r.2.2⟩ :: calls := by
  simp only [Option.map_eq_bind]
  rfl

theorem readLoop_plain {k : KeySeq} (hk : k.Plain) (n : ℕ) :
    readLoop fill seqBuf (n + 1) e (k.bytes ++ rest) = (k.press fill e).bind fun e' =>
      (readLoop fill seqBuf n e' rest).map fun calls => ⟨k.bytes ++ rest, e, true, rest, e'⟩ :: calls := by
  obtain ⟨c, w, hbytes⟩ := k.exists_cons
  rw [hbytes, List.cons_append, readLoop_cons, k.handleRawChar hk hbytes, Option.bind_map]
  rfl

theorem not_whole_of_params {p : { b : Byte // IsParam b }} {params : List { b : Byte // IsParam b }}
    {final : { b : Byte // ¬ IsParam b }} {keys : List KeySeq} {n : ℕ} {calls : List Call}
    (h : readLoop fill seqBuf (n + 1) e ((KeySeq.csi (p :: params) final).bytes ++ rest) = some calls) :
    ¬ List.Forall₂ Whole (.csi (p :: params) final :: keys) calls := by
  intro hwhole
  have hloop : readLoop fill seqBuf (n + 1) e (27 :: 91 :: p.val ::
      (params.map Subtype.val ++ [final.val] ++ rest)) = some calls := h
  obtain ⟨result, hcall⟩ : ∃ result, fancyReadlineHandleRawChar fill seqBuf e 27 (91 :: p.val ::
      (params.map Subtype.val ++ [final.val] ++ rest)) = some (result, _, e) :=
    handleRawChar_params p.property
  rw [readLoop_cons, hcall, Option.bind_some] at hloop
  obtain ⟨later, -, rfl⟩ := Option.map_eq_some_iff.1 hloop
  have hconsumed := (List.forall₂_cons.1 hwhole).1.consumed
  have hlen := congrArg List.length hconsumed
  simp only [KeySeq.bytes, List.length_append, List.length_cons, List.length_map, List.length_nil] at hlen
  omega

theorem Passes.adds {k : KeySeq} (htxt : e.text = some txt) (h : Passes (k.press fill e) txt (k.added txt)) :
    ∃ e' txt', k.press fill e = some e' ∧ Tracked e' txt' ∧ Adds k e e' := by
  obtain ⟨e', kept, new, hpress, h', hkept, hnew⟩ := h
  exact ⟨e', _, hpress, h', txt, kept, new, htxt, h'.text, hkept, hnew⟩

theorem readLoop_whole_iff (seqBuf : Editor → Byte × Byte) (h : Tracked e txt) {keys : List KeySeq} {n : ℕ}
    (hn : (keys.flatMap KeySeq.bytes).length ≤ n) :
    (∃ calls, readLoop fill seqBuf n e (keys.flatMap KeySeq.bytes) = some calls ∧
      List.Forall₂ Whole keys calls) ↔ Meets (KeySeq.press fill) TakenWhole e keys := by
  induction keys generalizing n e txt with
  | nil =>
    refine iff_of_true ⟨[], ?_, .nil⟩ trivial
    cases n with
    | zero => rfl
    | succ n => rfl
  | cons k keys ih =>
    obtain ⟨c, w, hbytes⟩ := k.exists_cons
    obtain ⟨n, rfl⟩ : ∃ m, n = m + 1 := by
      rw [List.flatMap_cons, hbytes, List.cons_append, List.length_cons] at hn
      exact ⟨n - 1, by omega⟩
    have hn' : (keys.flatMap KeySeq.bytes).length ≤ n := by
      rw [List.flatMap_cons, hbytes, List.length_append, List.length_cons] at hn
      omega
    rw [List.flatMap_cons]
    by_cases hk : k.Plain
    · rw [readLoop_plain hk]
      by_cases htaken : TakenWhole e k
      · obtain ⟨e', txt', hpress, h', hadds⟩ := ((h.press fill k).1 htaken).adds h.text
        rw [hpress, Option.bind_some]
        have hrest := ih h' hn'
        constructor
        · rintro ⟨calls, hcalls, hwhole⟩
          obtain ⟨later, hlater, rfl⟩ := Option.map_eq_some_iff.1 hcalls
          refine ⟨htaken, fun e₁ he₁ => ?_⟩
          obtain rfl := Option.some.inj (hpress.symm.trans he₁)
          exact hrest.1 ⟨later, hlater, (List.forall₂_cons.1 hwhole).2⟩
        · rintro ⟨-, hmeets⟩
          obtain ⟨later, hlater, hwhole⟩ := hrest.2 (hmeets e' hpress)
          exact ⟨_, Option.map_eq_some_iff.2 ⟨later, hlater, rfl⟩, .cons ⟨rfl, rfl, hadds⟩ hwhole⟩
      · rw [(h.press fill k).2 hk htaken, Option.bind_none]
        refine iff_of_false ?_ fun hmeets => htaken hmeets.1
        rintro ⟨calls, hcalls, -⟩
        exact Option.some_ne_none calls hcalls.symm
    · -- only a sequence with parameters is left
      rcases k with _ | _ | _ | ⟨_ | ⟨p, params⟩, final⟩ | _
      case csi.cons =>
        refine iff_of_false ?_ fun hmeets => hk hmeets.1
        rintro ⟨calls, hcalls, hwhole⟩
        exact not_whole_of_params hcalls hwhole
      all_goals exact absurd (by trivial) hk

end Calls

/-- The keys of an input are taken whole, one call for each, exactly when the sequences have no
parameters and the other keys do not fault. -/
theorem key_sequences_whole_iff (fill : Editor → ℕ → Byte) (seqBuf : Editor → Byte × Byte)
    (prompt : List Byte) (keys : List KeySeq) :
    KeysWhole fill seqBuf prompt keys ↔
      Meets (KeySeq.press fill) TakenWhole (startFancyReadline prompt) keys :=
  readLoop_whole_iff seqBuf (tracked_start prompt) le_rfl

/-- `ESC [ 3 ~`, the delete key: the call returns false with the `~` not read. `ESC [ ; A`: the `A` goes
into the text. -/
theorem delete_ends_input :
    (¬ KeysWhole (fun _ _ => 0) (fun _ => (0, 0)) [63] [.csi [⟨51, by decide⟩] ⟨126, by decide⟩] ∧
      (doFancyReadline (fun _ _ => 0) (fun _ => (0, 0)) [63] [27, 91, 51, 126]).map
        (List.map fun call => (call.result, call.rest)) = some [(false, [126])]) ∧
    (doFancyReadline (fun _ _ => 0) (fun _ => (0, 0)) [63] [27, 91, 59, 65]).map
      (List.map fun call => (call.result, call.rest, call.after.text)) =
        some [(true, [65], some []), (true, [], some [65])] := by
  refine ⟨⟨?_, by decide⟩, by decide⟩
  rintro ⟨calls, hcalls, hwhole⟩
  exact not_whole_of_params hcalls hwhole

end MutantC.FancyReadline
