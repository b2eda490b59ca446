import MutantC.Libtermkey.CsiRoundTrip
import MutantC.Libtermkey.TermkeyRuns

/-! What a program learns of a report that the terminal sent as a CSI sequence: the command and the arguments
of a sequence that no handler knows, and the figures of mouse, position and mode reports. -/

namespace MutantC.Libtermkey
open CBuffer Iteration StreamDecoder

section Interpret

/-- An `int` from a `char`, which is signed. -/
def charToInt (b : Byte) : ℤ := (b.toNat : ℤ).bmod 256

def termkeyInterpretPosition (key : TermKeyKey) : TermKeyResult × Option (ℕ × ℕ) :=
  if key.type ≠ .position then (.none, none)
  else
    let (_, m₁, m₂, m₃) := key.code.asMouse
    (.key, some (termkeyKeyGetLinecol m₁ m₂ m₃))

def termkeyInterpretModereport (key : TermKeyKey) : TermKeyResult × Option (ℤ × ℤ × ℤ) :=
  if key.type ≠ .modereport then (.none, none)
  else
    let (m₀, m₁, m₂, m₃) := key.code.asMouse
    let mode := BitVec.ofInt 32 (charToInt m₁) <<< 8 ||| BitVec.ofInt 32 (charToInt m₂)
    (.key, some (charToInt m₀, mode.toInt, charToInt m₃))

end Interpret

section Asked

/-- The CSI driver is asked about the bytes: it is alone, or terminfo has no string for them in front of it. -/
inductive Settings.AsksCsi (s : Settings) (w : List Byte) : Prop
  | alone (drivers : s.drivers = [.csi])
  | terminfo {root : TrieNode} (drivers : s.drivers = [.ti root, .csi])
    (leaves : ∀ csi, tiPeekkey s.toInterpretation csi root w false = some (.undecided .none id csi))

variable {s : Settings} {csi : TermKeyCsi} {w : List Byte}

theorem Settings.AsksCsi.append (h : s.AsksCsi w) (hw : w ≠ []) (c : List Byte) : s.AsksCsi (w ++ c) := by
  cases h with
  | alone hs => exact .alone hs
  | terminfo hs hleaves =>
    refine .terminfo hs fun csi => ?_
    rw [tiPeekkey_append c hw, hleaves]
    rintro ⟨r, hr, hagain⟩
    rw [hleaves] at hr
    cases hr
    cases hagain

theorem reply_of_csi {r : Reply} (hs : s.AsksCsi w) (hpeek : csiPeekkey s.toInterpretation csi w false = some r)
    (hkey : r.res = .key) : s.reply csi false w = some r := by
  obtain ⟨res, store, nbytes, hightide, csi'⟩ := r
  cases hkey
  have hcsi : tryDrivers s.toInterpretation csi w false [.csi] false id =
      some (.settled ⟨.key, store, nbytes, hightide, csi'⟩) := by
    rw [tryDrivers, Driver.peekkey, hpeek]
    rfl
  cases hs with
  | alone hs =>
    rw [Settings.reply_eq, hs, hcsi]
    rfl
  | @terminfo root hs hleaves =>
    have hti : tryDrivers s.toInterpretation csi w false [.ti root, .csi] false id =
        tryDrivers s.toInterpretation csi w false [.csi] false id := by
      rw [tryDrivers, Driver.peekkey, hleaves]
      rfl
    rw [Settings.reply_eq, hs, hti, hcsi]
    rfl

end Asked

section Sequence
variable {s : Settings} {csi : TermKeyCsi} {cmd : CsiCmd} {args : List ℤ} {intro : List Byte}

theorem csiPeekkey_sequence (hintro : IsCsi intro) (h : Writable cmd args)
    (hx10 : ¬ (cmd = ⟨ascii 'M', 0, 0⟩ ∧ args.length < 3)) (rest : List Byte) (force : Bool) :
    csiPeekkey s.toInterpretation csi (intro ++ (csiSequence cmd args ++ rest)) force =
      (handleCsi s.toInterpretation cmd args).map (csiReply csi intro.length (csiSequence cmd args).length cmd) := by
  have hdriver : csiPeekkey s.toInterpretation csi (intro ++ (csiSequence cmd args ++ rest)) force =
      peekkeyCsi s.toInterpretation csi (intro ++ (csiSequence cmd args ++ rest)) intro.length force := by
    rcases hintro with rfl | rfl
    · rfl
    · rfl
  have hlen : (csiBody cmd args).length + 1 = (csiSequence cmd args).length := by
    rw [csiSequence, List.length_append, List.length_singleton]
  rw [hdriver, peekkeyCsi, List.drop_left, splitFinal_csiSequence h]
  dsimp only
  rw [parseCsi_csiBody h, Option.bind_eq_bind, Option.bind_some]
  dsimp only
  rw [if_neg hx10, hlen]
  cases handleCsi s.toInterpretation cmd args with
  | none => rfl
  | some handled => rfl

theorem reply_sequence (hs : s.AsksCsi (intro ++ csiSequence cmd args)) (hintro : IsCsi intro) (h : Writable cmd args)
    (hx10 : ¬ (cmd = ⟨ascii 'M', 0, 0⟩ ∧ args.length < 3)) {handled : TermKeyResult × (TermKeyKey → TermKeyKey)}
    (hhandled : handleCsi s.toInterpretation cmd args = some handled) (rest : List Byte) :
    s.reply csi false (intro ++ (csiSequence cmd args ++ rest)) =
        some (csiReply csi intro.length (csiSequence cmd args).length cmd handled) ∧
      (csiReply csi intro.length (csiSequence cmd args).length cmd handled).res = .key := by
  have hkey : (csiReply csi intro.length (csiSequence cmd args).length cmd handled).res = .key := by
    unfold csiReply
    split_ifs with hnone
    · rfl
    · exact (handleCsi_res hhandled).resolve_left hnone
  have hne : intro ++ csiSequence cmd args ≠ [] :=
    List.append_ne_nil_of_right_ne_nil _ (List.append_ne_nil_of_right_ne_nil _ (List.cons_ne_nil _ _))
  have hasked := hs.append hne rest
  rw [List.append_assoc] at hasked
  refine ⟨reply_of_csi hasked ?_ hkey, hkey⟩
  rw [csiPeekkey_sequence hintro h hx10, hhandled, Option.map_some]

end Sequence

section Linecol

/-- The column comes back up to twelve bits, the line up to eleven bits but for the last of them. -/
theorem getLinecol_setLinecol {line col : ℤ} (hline : 0 ≤ line) (hcol : 0 ≤ col) :
    termkeyKeyGetLinecol (termkeyKeySetLinecol line col).1 (termkeyKeySetLinecol line col).2.1
        (termkeyKeySetLinecol line col).2.2 = (min col.toNat 0x7ff % 1024, min line.toNat 0xfff) ∧
      (termkeyKeySetLinecol line col).2.2.toNat < 64 := by
  have hcut : ∀ n m : ℤ, (if m < n then m else n) = min n m := fun n m => by
    split_ifs with hlt
    · exact (min_eq_right hlt.le).symm
    · exact (min_eq_left (not_lt.1 hlt)).symm
  unfold termkeyKeyGetLinecol termkeyKeySetLinecol
  simp only [hcut]
  have hl : (lowBits (min line 0xfff) 256).toNat = (min line 0xfff % 256).toNat :=
    toNat_lowBits _ (show 256 ≤ 256 by decide) (by decide)
  have hc : (lowBits (min col 0x7ff) 256).toNat = (min col 0x7ff % 256).toNat :=
    toNat_lowBits _ (show 256 ≤ 256 by decide) (by decide)
  have hl' : (lowBits (min line 0xfff / 256) 16).toNat = (min line 0xfff / 256 % 16).toNat :=
    toNat_lowBits _ (show 16 ≤ 256 by decide) (by decide)
  have hc' : (lowBits (min col 0x7ff / 256) 4).toNat = (min col 0x7ff / 256 % 4).toNat :=
    toNat_lowBits _ (show 4 ≤ 256 by decide) (by decide)
  have htop : (lowBits (min line 0xfff / 256) 16 + 16 * lowBits (min col 0x7ff / 256) 4).toNat =
      (min line 0xfff / 256 % 16).toNat + 16 * (min col 0x7ff / 256 % 4).toNat := by
    rw [UInt8.toNat_add, UInt8.toNat_mul, hl', hc']
    simp only [UInt8.reduceToNat]
    omega
  rw [hl, hc, htop, Prod.mk.injEq]
  omega

end Linecol

section Getkey
variable {tk : TermKey} {cmd : CsiCmd} {args : List ℤ} {intro rest : List Byte}

theorem getkey_handled (h : tk.WellFormed) (hs : tk.AsksCsi (intro ++ csiSequence cmd args)) (hintro : IsCsi intro) (hw : Writable cmd args)
    (hx10 : ¬ (cmd = ⟨ascii 'M', 0, 0⟩ ∧ args.length < 3)) {store : TermKeyKey → TermKeyKey}
    (hhandled : handleCsi tk.toInterpretation cmd args = some (.key, store))
    (hpending : tk.pending = intro ++ (csiSequence cmd args ++ rest)) :
    ∃ tk', termkeyGetkey tk = some (.key, tk', store) ∧ tk'.WellFormed ∧ tk'.pending = rest := by
  obtain ⟨hreply, hkey⟩ := reply_sequence hs hintro hw hx10 hhandled rest
  rw [← hpending] at hreply
  obtain ⟨tk', hgot, hwf, hbytes, hhightide⟩ := getkey_left h hreply hkey
  refine ⟨tk', hgot, hwf, ?_⟩
  have hnone : tk'.hightide = 0 := hhightide
  have hlen : (csiReply tk.csi intro.length (csiSequence cmd args).length cmd (.key, store)).nbytes =
      (intro ++ csiSequence cmd args).length := (List.length_append ..).symm
  rw [TermKey.pending_of_hightide hnone, hbytes, hpending, hlen, ← List.append_assoc, List.drop_left]

/-- A sequence was reported without its bytes, which still stand at the front of the buffer. -/
structure KeySession.Reported (seq : List Byte) (st : KeySession) : Prop where
  wellFormed : st.tk.WellFormed
  hightide : st.tk.hightide = seq.length
  bytes : seq <+: st.tk.bytes

namespace KeySession

theorem Reported.pushBytes {seq : List Byte} {st : KeySession} {c : TermKeyCall} (h : st.Reported seq)
    (hc : ∃ bytes, c = .pushBytes bytes) : ∃ st', st.call c = some st' ∧ st'.Reported seq := by
  obtain ⟨bytes, rfl⟩ := hc
  obtain ⟨took, st', hcall, happended, -⟩ := call_pushBytes h.wellFormed bytes
  refine ⟨st', hcall, happended.wellFormed, happended.hightide.trans h.hightide, ?_⟩
  rw [happended.bytes]
  exact h.bytes.trans (List.prefix_append _ _)

theorem Reported.interpretCsi {st : KeySession} (h : st.Reported (csiSequence cmd args)) (hw : Writable cmd args)
    {key : TermKeyKey} (hkey : key.type = .unknownCsi) :
    termkeyInterpretCsi st.tk key = some (.key, some (cmd, args)) := by
  have hpos : st.tk.hightide ≠ 0 := by
    rw [h.hightide, csiSequence, List.length_append]
    exact Nat.succ_ne_zero _
  obtain ⟨later, hlater⟩ := h.bytes
  rw [termkeyInterpretCsi, if_neg fun hor => hor.elim hpos fun hne => hne hkey, TermKey.window_eq h.wellFormed, ← hlater,
    Option.bind_eq_bind, Option.bind_some, splitFinal_csiSequence hw]
  dsimp only
  rw [parseCsi_csiBody hw]
  rfl

/-- A sequence that no handler knows is reported, and until the next call for a key it can be asked for its
command and its arguments, whatever is pushed meanwhile. -/
theorem interpretCsi_reported (h : tk.WellFormed) (hs : tk.AsksCsi (intro ++ csiSequence cmd args))
    (hintro : IsCsi intro) (hw : Writable cmd args) (hx10 : ¬ (cmd = ⟨ascii 'M', 0, 0⟩ ∧ args.length < 3))
    {store : TermKeyKey → TermKeyKey} (hunknown : handleCsi tk.toInterpretation cmd args = some (.none, store))
    (hpending : tk.pending = intro ++ (csiSequence cmd args ++ rest)) :
    ∃ tk' got, termkeyGetkey tk = some (.key, tk', got) ∧ tk'.pending = rest ∧ ∀ pushes : List (List Byte),
      ∃ st, run call ⟨tk', [], []⟩ (pushes.map .pushBytes) = some st ∧
        ∀ key, termkeyInterpretCsi st.tk (got key) = some (.key, some (cmd, args)) := by
  obtain ⟨hreply, hkey⟩ := reply_sequence hs hintro hw hx10 hunknown rest
  rw [← hpending] at hreply
  obtain ⟨tk', hgot, hwf, hbytes, hhightide⟩ := getkey_left h hreply hkey
  have hleft : tk'.hightide = (csiSequence cmd args).length := hhightide
  have hseq : tk'.bytes = csiSequence cmd args ++ rest := by
    rw [hbytes, hpending]
    exact List.drop_left
  refine ⟨tk', _, hgot, by rw [TermKey.pending, hseq, hleft, List.drop_left], fun pushes => ?_⟩
  have hstart : Reported (csiSequence cmd args) ⟨tk', [], []⟩ :=
    ⟨hwf, hleft, by simp only [hseq]; exact List.prefix_append _ _⟩
  have hcalls : ∀ c ∈ pushes.map TermKeyCall.pushBytes, ∃ bytes, c = .pushBytes bytes := by
    intro c hc
    obtain ⟨bytes, -, rfl⟩ := List.mem_map.1 hc
    exact ⟨bytes, rfl⟩
  obtain ⟨st, hrun, hst⟩ := exists_run (fun _ _ hst hc => hst.pushBytes hc) hstart hcalls
  exact ⟨st, hrun, fun key => hst.interpretCsi hw rfl⟩

/-- `CSI 5 ; ; 25 v` -/
theorem interpretCsi_reported_v : ∃ tk tk' got st,
    tk.pending = [0x1b, 0x5b] ++ (csiSequence ⟨ascii 'v', 0, 0⟩ [5, -1, 25] ++ [0x61]) ∧
      termkeyGetkey tk = some (.key, tk', got) ∧
      run call ⟨tk', [], []⟩ ([[0x62], [0x63, 0x64]].map .pushBytes) = some st ∧
      termkeyInterpretCsi st.tk (got zeroKey) = some (.key, some (⟨ascii 'v', 0, 0⟩, [5, -1, 25])) := by
  obtain ⟨tk, hwf, hdrivers, hpending⟩ := exists_pending [.csi]
    (show ([0x1b, 0x5b] ++ (csiSequence ⟨ascii 'v', 0, 0⟩ [5, -1, 25] ++ [0x61])).length ≤ 256 by decide)
  have hw : Writable ⟨ascii 'v', 0, 0⟩ [5, -1, 25] :=
    ⟨by decide, Or.inl rfl, Or.inl rfl, by decide, by decide, by decide⟩
  have hunknown : handleCsi tk.toInterpretation ⟨ascii 'v', 0, 0⟩ [5, -1, 25] = some (.none, id) := rfl
  obtain ⟨tk', got, hgot, -, hasked⟩ := interpretCsi_reported hwf (.alone hdrivers) (Or.inl rfl) hw (by decide) hunknown hpending
  obtain ⟨st, hrun, hanswer⟩ := hasked [[0x62], [0x63, 0x64]]
  exact ⟨tk, tk', got, st, hpending, hgot, hrun, hanswer zeroKey⟩

end KeySession

section Figures

theorem toInt_of_nonneg {n : ℤ} (h : 0 ≤ n ∧ n < 2 ^ 31) : toInt n = n := by
  unfold toInt
  rw [Int.bmod_eq_of_le] <;> omega

/-- A position report is a key that has the line up to 1023 and the column up to 4095. -/
theorem getkey_position (h : tk.WellFormed) {row column : ℤ}
    (hs : tk.AsksCsi (intro ++ csiSequence ⟨ascii 'R', ascii '?', 0⟩ [row, column])) (hintro : IsCsi intro)
    (hrow : 0 ≤ row ∧ row < 2 ^ 31) (hcolumn : 0 ≤ column ∧ column < 2 ^ 31)
    (hpending : tk.pending = intro ++ (csiSequence ⟨ascii 'R', ascii '?', 0⟩ [row, column] ++ rest)) :
    ∃ tk' store line col, termkeyGetkey tk = some (.key, tk', store) ∧ tk'.pending = rest ∧
      (∀ key, termkeyInterpretPosition (store key) = (.key, some (line, col))) ∧
      ((line : ℤ) = row ∧ (col : ℤ) = column ↔ row ≤ 1023 ∧ column ≤ 4095) := by
  have hw : Writable ⟨ascii 'R', ascii '?', 0⟩ [row, column] := by
    refine ⟨by decide, Or.inr (by decide), Or.inl rfl, by simp, ?_, ?_⟩
    · intro arg harg
      simp only [List.mem_cons, List.not_mem_nil, or_false] at harg
      rcases harg with rfl | rfl <;> omega
    · simp only [List.getLast?_cons_cons, List.getLast?_singleton, ne_eq, Option.some.injEq]
      omega
  obtain ⟨hplace, -⟩ := getLinecol_setLinecol hcolumn.1 hrow.1
  have hhandled : handleCsi tk.toInterpretation ⟨ascii 'R', ascii '?', 0⟩ [row, column] =
      some (.key, fun key => { key with
        type := .position
        code := .mouse key.code.asMouse.1 (termkeyKeySetLinecol column row).1 (termkeyKeySetLinecol column row).2.1
          (termkeyKeySetLinecol column row).2.2 }) := by
    have hr : csiHandlers (ascii 'R') = some .r := rfl
    simp only [handleCsi, hr, handleCsiR, if_true, toInt_of_nonneg hrow, toInt_of_nonneg hcolumn]
  obtain ⟨tk', hgot, -, hrest⟩ := getkey_handled h hs hintro hw (fun hx10 => absurd hx10.1 (by decide)) hhandled hpending
  refine ⟨tk', _, min row.toNat 0x7ff % 1024, min column.toNat 0xfff, hgot, hrest, fun key => ?_, by omega⟩
  rw [termkeyInterpretPosition, if_neg (not_not.2 rfl)]
  simp only [Code.asMouse, hplace]

/-- A report behind the terminfo of a vt220, which has sequences with the same introducer. -/
theorem getkey_position_report : ∃ root tk tk' store, loadTerminfo vt220 = some root ∧ tk.drivers = [.ti root, .csi] ∧
    tk.pending = [0x1b, 0x5b] ++ (csiSequence ⟨ascii 'R', ascii '?', 0⟩ [15, 7] ++ []) ∧
      termkeyGetkey tk = some (.key, tk', store) ∧ tk'.pending = [] := by
  obtain ⟨root, hload, htable, -⟩ := loadTerminfo_vt220
  obtain ⟨tk, hwf, hdrivers, hpending⟩ := exists_pending [.ti root, .csi]
    (show ([0x1b, 0x5b] ++ (csiSequence ⟨ascii 'R', ascii '?', 0⟩ [15, 7] ++ [])).length ≤ 256 by decide)
  have hasked : tk.AsksCsi ([0x1b, 0x5b] ++ csiSequence ⟨ascii 'R', ascii '?', 0⟩ [15, 7]) :=
    .terminfo hdrivers fun csi => (htable _ csi _ (List.cons_ne_nil _ _)).trans rfl
  obtain ⟨tk', store, -, -, hgot, hrest, -⟩ := getkey_position hwf hasked (Or.inl rfl) (by decide) (by decide) hpending
  exact ⟨root, tk, tk', store, hload, hdrivers, hpending, hgot, hrest⟩

theorem charToInt_eq (b : Byte) : charToInt b = if b.toNat < 128 then (b.toNat : ℤ) else b.toNat - 256 := by
  have hlt := b.toNat_lt
  unfold charToInt
  rw [Int.bmod_def]
  split_ifs <;> omega

theorem reportedMode (m₁ m₂ : Byte) :
    (m₂.toNat < 128 → (BitVec.ofInt 32 (charToInt m₁) <<< 8 ||| BitVec.ofInt 32 (charToInt m₂)).toInt =
      charToInt m₁ * 256 + m₂.toNat) ∧
    (128 ≤ m₂.toNat → (BitVec.ofInt 32 (charToInt m₁) <<< 8 ||| BitVec.ofInt 32 (charToInt m₂)).toInt < 0) := by
  have hlt := m₂.toNat_lt
  have hint : (BitVec.ofInt 32 (charToInt m₂)).toInt = charToInt m₂ := by
    rw [BitVec.toInt_ofInt, charToInt_eq, Int.bmod_def]
    split_ifs <;> omega
  constructor
  · intro hlow
    have hx : (BitVec.ofInt 32 (charToInt m₁) <<< 8).toNat = 2 ^ 8 * ((BitVec.ofInt 32 (charToInt m₁)).toNat % 2 ^ 24) := by
      rw [BitVec.toNat_shiftLeft, Nat.shiftLeft_eq]
      omega
    have hy : (BitVec.ofInt 32 (charToInt m₂)).toNat = m₂.toNat := by
      rw [charToInt_eq, if_pos hlow, BitVec.toNat_ofInt]
      omega
    have hm₁ : (BitVec.ofInt 32 (charToInt m₁)).toNat = (charToInt m₁ % 2 ^ 32).toNat := BitVec.toNat_ofInt ..
    have hrange := charToInt_eq m₁
    have hlt₁ := m₁.toNat_lt
    rw [BitVec.toInt_eq_toNat_cond, BitVec.toNat_or, hx, hy, ← Nat.two_pow_add_eq_or_of_lt (by omega), hm₁]
    split_ifs at hrange ⊢ <;> omega
  · intro hhigh
    have hmsb : (BitVec.ofInt 32 (charToInt m₂)).msb = true := by
      rw [BitVec.msb_eq_toInt, hint, charToInt_eq, if_neg (not_lt.2 hhigh)]
      exact decide_eq_true (by omega)
    have hor : (BitVec.ofInt 32 (charToInt m₁) <<< 8 ||| BitVec.ofInt 32 (charToInt m₂)).msb = true := by
      rw [BitVec.msb_or, hmsb, Bool.or_true]
    rw [BitVec.msb_eq_toInt] at hor
    exact of_decide_eq_true hor

theorem toNat_toChar (n : ℤ) : (toChar n).toNat = (n % 256).toNat :=
  toNat_lowBits n (show 256 ≤ 256 by decide) (by decide)

/-- A mode report is a key that has the mode and the value, where no byte of them reaches 0x80. -/
theorem getkey_modereport (h : tk.WellFormed) {initial : Byte} {mode value : ℤ}
    (hs : tk.AsksCsi (intro ++ csiSequence ⟨ascii 'y', initial, ascii '$'⟩ [mode, value])) (hintro : IsCsi intro)
    (hinitial : initial = 0 ∨ initial = ascii '?') (hmode : 0 ≤ mode ∧ mode < 2 ^ 63)
    (hvalue : 0 ≤ value ∧ value < 2 ^ 63)
    (hpending : tk.pending = intro ++ (csiSequence ⟨ascii 'y', initial, ascii '$'⟩ [mode, value] ++ rest)) :
    ∃ tk' store, ∃ mode' value' : ℤ, termkeyGetkey tk = some (.key, tk', store) ∧ tk'.pending = rest ∧
      (∀ key, termkeyInterpretModereport (store key) = (TermKeyResult.key, some ((initial.toNat : ℤ), mode', value'))) ∧
      (mode' = mode ∧ value' = value ↔ mode % 256 < 128 ∧ mode < 2 ^ 15 ∧ value < 128) := by
  have hdollar : Intermediate (ascii '$') := ⟨by decide, by decide⟩
  have hfinal : 0x40 ≤ ascii 'y' ∧ ascii 'y' < 0x80 := by decide
  have hother : ascii 'y' ≠ ascii 'M' := by decide
  have hw : Writable ⟨ascii 'y', initial, ascii '$'⟩ [mode, value] := by
    refine ⟨hfinal, ?_, Or.inr hdollar, by simp, ?_, ?_⟩
    · rcases hinitial with rfl | rfl
      · exact Or.inl rfl
      · exact Or.inr (by decide)
    · intro arg harg
      simp only [List.mem_cons, List.not_mem_nil, or_false] at harg
      rcases harg with rfl | rfl <;> omega
    · simp only [List.getLast?_cons_cons, List.getLast?_singleton, ne_eq, Option.some.injEq]
      omega
  have hhandled : handleCsi tk.toInterpretation ⟨ascii 'y', initial, ascii '$'⟩ [mode, value] =
      some (.key, fun key => { key with
        type := .modereport
        code := .mouse initial (toChar (mode / 256)) (toChar mode) (toChar value) }) := by
    have hy : csiHandlers (ascii 'y') = some .y := rfl
    rcases hinitial with rfl | rfl
    · simp only [handleCsi, hy, handleCsiY, true_or, if_true]
    · simp only [handleCsi, hy, handleCsiY, or_true, if_true]
  obtain ⟨tk', hgot, -, hrest⟩ :=
    getkey_handled h hs hintro hw (fun hx10 => hother (congrArg CsiCmd.final hx10.1)) hhandled hpending
  refine ⟨tk', _, (BitVec.ofInt 32 (charToInt (toChar (mode / 256))) <<< 8 |||
    BitVec.ofInt 32 (charToInt (toChar mode))).toInt, charToInt (toChar value), hgot, hrest, fun key => ?_, ?_⟩
  · have hlow : initial.toNat < 128 := by
      rcases hinitial with rfl | rfl
      · decide
      · decide
    have hshown : charToInt initial = initial.toNat := by
      rw [charToInt_eq, if_pos hlow]
    rw [termkeyInterpretModereport, if_neg (not_not.2 rfl), ← hshown]
    rfl
  · obtain ⟨hlow, hhigh⟩ := reportedMode (toChar (mode / 256)) (toChar mode)
    have hm₁ := charToInt_eq (toChar (mode / 256))
    have hv := charToInt_eq (toChar value)
    rw [toNat_toChar] at hlow hhigh hm₁ hv
    constructor
    · rintro ⟨hsame, hsame'⟩
      have hsmall : (mode % 256).toNat < 128 := by
        by_contra hge
        have hneg := hhigh (not_lt.1 hge)
        rw [hsame] at hneg
        omega
      rw [hlow hsmall] at hsame
      split_ifs at hm₁ hv <;> omega
    · rintro ⟨hmod, hlt, hlt'⟩
      rw [hlow (by omega)]
      split_ifs at hm₁ hv <;> omega

theorem getkey_modereport_paste : ∃ tk tk' store,
    tk.pending = [0x1b, 0x5b] ++ (csiSequence ⟨ascii 'y', ascii '?', ascii '$'⟩ [2004, 1] ++ [0x1b]) ∧
      termkeyGetkey tk = some (.key, tk', store) ∧ tk'.pending = [0x1b] := by
  obtain ⟨tk, hwf, hdrivers, hpending⟩ := exists_pending [.csi]
    (show ([0x1b, 0x5b] ++ (csiSequence ⟨ascii 'y', ascii '?', ascii '$'⟩ [2004, 1] ++ [0x1b])).length ≤ 256 by decide)
  obtain ⟨tk', store, -, -, hgot, hrest, -⟩ := getkey_modereport hwf (.alone hdrivers) (Or.inl rfl) (Or.inr rfl) (by decide)
    (by decide) hpending
  exact ⟨tk, tk', store, hpending, hgot, hrest⟩

end Figures

end Getkey

end MutantC.Libtermkey
