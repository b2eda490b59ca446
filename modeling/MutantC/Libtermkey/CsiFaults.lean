import MutantC.Libtermkey.CsiDriver

/-! What the CSI driver must not be given: the sequences on which it reads or writes outside of its arrays,
and that there are no others. -/

namespace MutantC.Libtermkey
open CBuffer

/-- The byte after which the rest of a sequence is not looked at. -/
def Intermediate (c : Byte) : Prop := 0x20 ≤ c ∧ c ≤ 0x2f

def Parameter (c : Byte) : Prop := (48 ≤ c ∧ c ≤ 57) ∨ c = 59

section Arguments

theorem csiArgs_digit {c : Byte} (hc : 48 ≤ c ∧ c ≤ 57) (body : List Byte) (args : List ℤ) (present : Option ℤ) :
    csiArgs (c :: body) args present =
      (csiDigit args (c.toNat - 48) present).bind fun arg => csiArgs body args (some arg) := if_pos hc

theorem csiArgs_separator (body : List Byte) {args : List ℤ} {present : Option ℤ} (hle : args.length ≤ 16)
    (hpresent : present ≠ none → args.length < 16) :
    csiArgs (59 :: body) args present =
      if args.length < 16 then csiArgs body (args ++ [present.getD (-1)]) none else none := by
  rw [csiArgs, if_neg (by decide), if_pos rfl]
  by_cases hlt : args.length < 16
  · rw [if_pos hlt, if_neg fun hand => absurd hlt (not_lt.2 hand.2)]
    exact if_neg (by rw [List.length_append, List.length_singleton]; omega)
  · have hnone : present = none := by_contra fun hne => hlt (hpresent hne)
    rw [if_neg hlt, if_pos ⟨hnone, not_lt.1 hlt⟩]

theorem Parameter.not_intermediate {c : Byte} (h : Parameter c) : ¬ Intermediate c := by
  rintro ⟨-, hle⟩
  rcases h with ⟨hc, -⟩ | rfl
  · exact absurd (UInt8.le_trans hc hle) (by decide)
  · exact absurd hle (by decide)

theorem csiArgs_intermediate {c : Byte} (hc : Intermediate c) (body : List Byte) (args : List ℤ)
    (present : Option ℤ) : csiArgs (c :: body) args present = some (args ++ present.toList, c) := by
  have hparam : ¬ Parameter c := fun h => h.not_intermediate hc
  rw [csiArgs, if_neg fun h => hparam (Or.inl h), if_neg fun h => hparam (Or.inr h)]
  exact if_pos hc

theorem csiArgs_other {c : Byte} (hc : ¬ Intermediate c) (hc' : ¬ Parameter c) (body : List Byte) (args : List ℤ)
    (present : Option ℤ) : csiArgs (c :: body) args present = csiArgs body args present := by
  rw [csiArgs, if_neg fun h => hc' (Or.inl h), if_neg fun h => hc' (Or.inr h)]
  exact if_neg hc

def Overflows (separators : ℕ) (body : List Byte) : Prop :=
  ∃ pre c post, body = pre ++ c :: post ∧ (∀ x ∈ pre, ¬ Intermediate x) ∧ pre.count 59 = separators ∧ Parameter c

theorem not_overflows_nil (n : ℕ) : ¬ Overflows n [] := by
  rintro ⟨pre, c, post, heq, -⟩
  simp at heq

theorem overflows_cons {n : ℕ} {c : Byte} {body : List Byte} :
    Overflows n (c :: body) ↔ (Parameter c ∧ n = 0) ∨
      ¬ Intermediate c ∧ ∃ m, n = m + (if c = 59 then 1 else 0) ∧ Overflows m body := by
  constructor
  · rintro ⟨pre, d, post, heq, hpre, hcount, hd⟩
    cases pre with
    | nil =>
      cases heq
      exact Or.inl ⟨hd, hcount.symm⟩
    | cons x pre =>
      cases heq
      obtain ⟨hx, hpre⟩ := List.forall_mem_cons.1 hpre
      refine Or.inr ⟨hx, pre.count 59, ?_, pre, d, post, rfl, hpre, rfl, hd⟩
      rw [← hcount, List.count_cons]
      simp
  · rintro (⟨hc, rfl⟩ | ⟨hc, m, rfl, pre, d, post, rfl, hpre, rfl, hd⟩)
    · exact ⟨[], c, body, rfl, fun x hx => absurd hx List.not_mem_nil, rfl, hc⟩
    · refine ⟨c :: pre, d, post, rfl, List.forall_mem_cons.2 ⟨hc, hpre⟩, ?_, hd⟩
      rw [List.count_cons]
      simp

theorem overflows_cons_of_ne {n : ℕ} {c : Byte} {body : List Byte} (hne : c ≠ 59) (hc : ¬ Intermediate c)
    (hparam : Parameter c → n ≠ 0) : Overflows n (c :: body) ↔ Overflows n body := by
  rw [overflows_cons]
  constructor
  · rintro (⟨hc, hzero⟩ | ⟨-, m, hm, h⟩)
    · exact absurd hzero (hparam hc)
    · rw [if_neg hne, Nat.add_zero] at hm
      rwa [hm]
  · exact fun h => Or.inr ⟨hc, n, by rw [if_neg hne, Nat.add_zero], h⟩

theorem csiDigit_some {args : List ℤ} (hlt : args.length < 16) (digit : ℕ) (present : Option ℤ) :
    ∃ arg, csiDigit args digit present = some arg := by
  cases present with
  | none => exact ⟨_, if_pos hlt⟩
  | some arg => exact ⟨_, rfl⟩

/-- The array of the arguments is overrun by what stands behind sixteen separators. -/
theorem csiArgs_none_iff {body : List Byte} {args : List ℤ} {present : Option ℤ} (hle : args.length ≤ 16)
    (hpresent : present ≠ none → args.length < 16) :
    csiArgs body args present = none ↔ Overflows (16 - args.length) body := by
  induction body generalizing args present with
  | nil => exact iff_of_false (Option.some_ne_none _) (not_overflows_nil _)
  | cons c body ih =>
    by_cases hinter : Intermediate c
    · rw [csiArgs_intermediate hinter, overflows_cons]
      refine iff_of_false (Option.some_ne_none _) ?_
      rintro (⟨hc, -⟩ | ⟨hc, -⟩)
      · exact hc.not_intermediate hinter
      · exact hc hinter
    · by_cases hseparator : c = 59
      · subst hseparator
        rw [csiArgs_separator body hle hpresent, overflows_cons]
        by_cases hlt : args.length < 16
        · rw [if_pos hlt, ih (by rw [List.length_append, List.length_singleton]; omega) (fun h => absurd rfl h),
            List.length_append, List.length_singleton]
          constructor
          · exact fun h => Or.inr ⟨hinter, _, by rw [if_pos rfl]; omega, h⟩
          · rintro (⟨-, hzero⟩ | ⟨-, m, hm, h⟩)
            · omega
            · rw [if_pos rfl] at hm
              rwa [show 16 - (args.length + 1) = m by omega]
        · rw [if_neg hlt]
          exact iff_of_true rfl (Or.inl ⟨Or.inr rfl, by omega⟩)
      · by_cases hdigit : 48 ≤ c ∧ c ≤ 57
        · rw [csiArgs_digit hdigit]
          by_cases hlt : args.length < 16
          · obtain ⟨arg, harg⟩ := csiDigit_some hlt (c.toNat - 48) present
            rw [harg, Option.bind_some, ih hle fun _ => hlt,
              overflows_cons_of_ne hseparator hinter fun _ => by omega]
          · have hnone : present = none := by_contra fun hne => hlt (hpresent hne)
            have hroom : csiDigit args (c.toNat - 48) none = none := if_neg hlt
            rw [hnone, hroom, Option.bind_none, overflows_cons]
            exact iff_of_true rfl (Or.inl ⟨Or.inl hdigit, by omega⟩)
        · have hparam : ¬ Parameter c := fun h => h.elim hdigit hseparator
          rw [csiArgs_other hinter hparam, ih hle hpresent,
            overflows_cons_of_ne hseparator hinter fun h => absurd h hparam]

end Arguments

section Handlers
variable {s : Interpretation}

theorem emitCodepoint_none_iff {codepoint : ℤ} :
    emitCodepoint s codepoint = none ↔ codepoint < 0 ∧ ¬ HasFlag s.flags flagNointerpret := by
  rw [emitCodepoint, Option.map_eq_none_iff]
  by_cases hneg : codepoint < 0
  · unfold codepointKey c0Entry
    rw [if_neg (by omega), if_pos (by omega)]
    split_ifs with hflag
    · simp [hflag]
    · simp [hflag, hneg]
  · obtain ⟨found, hfound⟩ := codepointKey_isSome s (not_lt.1 hneg)
    rw [hfound]
    simp [hneg]

/-- What a handler reads and was not given, or where it reads beside a table. -/
def HandlerFault (s : Interpretation) (cmd : CsiCmd) (args : List ℤ) : Prop :=
  match csiHandlers cmd.final with
  | some .ss3Full => cmd.initial ≠ 0 ∨ cmd.intermediate ≠ 0
  | some .r => cmd ≠ ⟨ascii 'R', ascii '?', 0⟩ ∧ (cmd.initial ≠ 0 ∨ cmd.intermediate ≠ 0)
  | some .csifunc => args = [] ∨ args[0]? = some 27 ∧
      (args.length < 3 ∨ ¬ HasFlag s.flags flagNointerpret ∧ ∃ codepoint : ℤ, codepoint < 0 ∧ args[2]? = some codepoint)
  | some .u => cmd = ⟨ascii 'u', 0, 0⟩ ∧
      (args = [] ∨ ¬ HasFlag s.flags flagNointerpret ∧ ∃ codepoint : ℤ, codepoint < 0 ∧ args[0]? = some codepoint)
  | _ => False

theorem handleCsiSs3Full_none_iff {cmd : CsiCmd} {args : List ℤ} :
    handleCsiSs3Full cmd args = none ↔ cmd.initial ≠ 0 ∨ cmd.intermediate ≠ 0 := by
  unfold handleCsiSs3Full
  split_ifs with h
  · exact iff_of_true rfl h
  · exact iff_of_false (by simp) h

theorem emit_bind_none_iff {args : List ℤ} (i : ℕ) {β : Type*} (f : (TermKeyKey → TermKeyKey) → β) :
    (args[i]?.bind fun codepoint => (emitCodepoint s codepoint).bind fun emit => some (f emit)) = none ↔
      args.length ≤ i ∨
        ¬ HasFlag s.flags flagNointerpret ∧ ∃ codepoint : ℤ, codepoint < 0 ∧ args[i]? = some codepoint := by
  cases harg : args[i]? with
  | none => simp [List.getElem?_eq_none_iff.1 harg]
  | some codepoint =>
    have hlt := (List.getElem?_eq_some_iff.1 harg).1
    have hemit : ((emitCodepoint s codepoint).bind fun emit => some (f emit)) = none ↔
        emitCodepoint s codepoint = none := by
      cases emitCodepoint s codepoint <;> simp
    rw [Option.bind_some, hemit, emitCodepoint_none_iff]
    constructor
    · exact fun h => Or.inr ⟨h.2, codepoint, h.1, rfl⟩
    · rintro (hle | ⟨hflag, codepoint', hneg, heq⟩)
      · omega
      · cases heq
        exact ⟨hneg, hflag⟩

theorem handleCsifunc_none_iff {args : List ℤ} : handleCsifunc s args = none ↔ args = [] ∨ args[0]? = some 27 ∧
    (args.length < 3 ∨
      ¬ HasFlag s.flags flagNointerpret ∧ ∃ codepoint : ℤ, codepoint < 0 ∧ args[2]? = some codepoint) := by
  unfold handleCsifunc
  cases args with
  | nil => simp
  | cons arg args =>
    rw [List.getElem?_cons_zero, Option.bind_eq_bind, Option.bind_some]
    by_cases h27 : arg = 27
    · rw [if_pos h27, h27]
      refine (emit_bind_none_iff 2 _).trans ?_
      have hlen : (27 :: args).length ≤ 2 ↔ (27 :: args).length < 3 := Nat.lt_succ_iff.symm
      rw [hlen]
      simp
    · rw [if_neg h27]
      split_ifs
      · simp [h27]
      · simp [h27]

theorem handleCsiU_none_iff {cmd : CsiCmd} {args : List ℤ} :
    handleCsiU s cmd args = none ↔ cmd = ⟨ascii 'u', 0, 0⟩ ∧ (args = [] ∨
      ¬ HasFlag s.flags flagNointerpret ∧ ∃ codepoint : ℤ, codepoint < 0 ∧ args[0]? = some codepoint) := by
  unfold handleCsiU
  split_ifs with hcmd
  · refine (emit_bind_none_iff 0 _).trans ?_
    rw [Nat.le_zero, List.length_eq_zero_iff]
    exact (and_iff_right hcmd).symm
  · exact iff_of_false (by simp) fun h => hcmd h.1

theorem handleCsiM_ne_none (cmd : CsiCmd) (args : List ℤ) : handleCsiM cmd args ≠ none := by
  unfold handleCsiM
  split
  · dsimp only
    split_ifs <;> exact Option.some_ne_none _
  · exact Option.some_ne_none _

theorem handleCsiR_none_iff {cmd : CsiCmd} {args : List ℤ} : handleCsiR cmd args = none ↔
    cmd ≠ ⟨ascii 'R', ascii '?', 0⟩ ∧ (cmd.initial ≠ 0 ∨ cmd.intermediate ≠ 0) := by
  unfold handleCsiR
  split_ifs with hcmd
  · refine iff_of_false ?_ fun h => h.1 hcmd
    split <;> exact Option.some_ne_none _
  · rw [handleCsiSs3Full_none_iff]
    exact (and_iff_right hcmd).symm

theorem handleCsiY_ne_none (cmd : CsiCmd) (args : List ℤ) : handleCsiY cmd args ≠ none := by
  unfold handleCsiY
  split_ifs
  · split <;> exact Option.some_ne_none _
  · exact Option.some_ne_none _

theorem handleCsi_none_iff {cmd : CsiCmd} {args : List ℤ} : handleCsi s cmd args = none ↔ HandlerFault s cmd args := by
  unfold handleCsi HandlerFault
  cases csiHandlers cmd.final with
  | none => exact iff_of_false (Option.some_ne_none _) id
  | some handler =>
    cases handler with
    | ss3Full => exact handleCsiSs3Full_none_iff
    | csifunc => exact handleCsifunc_none_iff
    | u => exact handleCsiU_none_iff
    | m => exact iff_of_false (handleCsiM_ne_none cmd args) id
    | r => exact handleCsiR_none_iff
    | y => exact iff_of_false (handleCsiY_ne_none cmd args) id

end Handlers

section Driver
variable {s : Interpretation} {csi : TermKeyCsi} {w body : List Byte} {final : Byte}

def CsiFault (s : Interpretation) (body : List Byte) (final : Byte) : Prop :=
  Overflows 16 body ∨ ∃ cmd args, parseCsi body final = some (cmd, args) ∧
    ¬ (cmd = ⟨ascii 'M', 0, 0⟩ ∧ args.length < 3) ∧ HandlerFault s cmd args

theorem parseCsi_none_iff : parseCsi body final = none ↔ Overflows 16 body := by
  have hargs : ∀ body, csiArgs body [] none = none ↔ Overflows 16 body := fun body =>
    csiArgs_none_iff (Nat.zero_le _) fun h => absurd rfl h
  cases body with
  | nil => exact iff_of_false (Option.some_ne_none _) (not_overflows_nil _)
  | cons b rest =>
    rw [parseCsi]
    split_ifs with hinitial
    · have hparam : ¬ Parameter b := by
        rintro (⟨-, hle⟩ | rfl)
        · exact absurd (UInt8.le_trans hinitial.1 hle) (by decide)
        · exact absurd hinitial.1 (by decide)
      have hinter : ¬ Intermediate b := fun h => absurd (UInt8.le_trans hinitial.1 h.2) (by decide)
      have hne : b ≠ 59 := fun h => hparam (Or.inr h)
      rw [Option.map_eq_none_iff, hargs, overflows_cons_of_ne hne hinter fun h => absurd h hparam]
    · rw [Option.map_eq_none_iff, hargs]

theorem peekkeyCsi_none_iff {introlen : ℕ} {force : Bool} : peekkeyCsi s csi w introlen force = none ↔
    ∃ body final, splitFinal (w.drop introlen) = some (body, final) ∧ CsiFault s body final := by
  unfold peekkeyCsi
  cases hsplit : splitFinal (w.drop introlen) with
  | none =>
    refine iff_of_false ?_ ?_
    · dsimp only
      split_ifs
      · obtain ⟨emit, hemit⟩ := emitCodepoint_isSome s (show (0 : ℤ) ≤ (ascii '[').toNat by decide)
        rw [hemit]
        exact Option.some_ne_none _
      · exact id
    · rintro ⟨body, final, heq, -⟩
      cases heq
  | some found =>
    obtain ⟨body, final⟩ := found
    dsimp only
    have hiff : (∃ body' final', some (body, final) = some (body', final') ∧ CsiFault s body' final') ↔
        CsiFault s body final := by
      constructor
      · rintro ⟨body', final', heq, h⟩
        cases heq
        exact h
      · exact fun h => ⟨body, final, rfl, h⟩
    have hoverflow : parseCsi body final = none ↔ Overflows 16 body := parseCsi_none_iff
    rw [hiff, CsiFault, ← hoverflow]
    cases hparse : parseCsi body final with
    | none => exact iff_of_true rfl (Or.inl rfl)
    | some parsed =>
      obtain ⟨cmd, args⟩ := parsed
      rw [Option.bind_eq_bind, Option.bind_some]
      dsimp only
      have hparsed : (∃ cmd' args', some (cmd, args) = some (cmd', args') ∧
          ¬ (cmd' = ⟨ascii 'M', 0, 0⟩ ∧ args'.length < 3) ∧ HandlerFault s cmd' args') ↔
          ¬ (cmd = ⟨ascii 'M', 0, 0⟩ ∧ args.length < 3) ∧ HandlerFault s cmd args := by
        constructor
        · rintro ⟨cmd', args', heq, h⟩
          cases heq
          exact h
        · exact fun h => ⟨cmd, args, rfl, h⟩
      rw [hparsed, or_iff_right (Option.some_ne_none _), ← handleCsi_none_iff]
      split_ifs with hmouse
      · exact iff_of_false id fun h => h.1 hmouse
      · rw [and_iff_right hmouse]
        cases handleCsi s cmd args <;> simp

theorem peekkeySs3_ne_none {introlen : ℕ} {force : Bool} : peekkeySs3 s csi w introlen force ≠ none := by
  unfold peekkeySs3
  split
  · split_ifs
    · obtain ⟨emit, hemit⟩ := emitCodepoint_isSome s (show (0 : ℤ) ≤ (ascii 'O').toNat by decide)
      rw [hemit]
      exact Option.some_ne_none _
    · exact Option.some_ne_none _
  · split_ifs <;> exact Option.some_ne_none _

theorem peekkeyCtrlstring_ne_none {introlen : ℕ} (hlt : introlen - 1 < w.length) :
    peekkeyCtrlstring csi w introlen ≠ none := by
  unfold peekkeyCtrlstring
  split
  · exact Option.some_ne_none _
  · rw [List.getElem?_eq_getElem hlt]
    exact Option.some_ne_none _

def IsCsi (intro : List Byte) : Prop := intro = [0x1b, 0x5b] ∨ intro = [0x9b]

theorem csiPeekkey_none_iff {force : Bool} : csiPeekkey s csi w force = none ↔
    ∃ intro rest body final, w = intro ++ rest ∧ IsCsi intro ∧ splitFinal rest = some (body, final) ∧
      CsiFault s body final := by
  constructor
  · intro hnone
    cases w with
    | nil => cases hnone
    | cons b0 rest =>
      by_cases hb0 : b0 = 0x1b
      · subst hb0
        cases rest with
        | nil => cases hnone
        | cons b1 rest =>
          simp only [csiPeekkey, if_true] at hnone
          split_ifs at hnone with hss3 hstring hcsi
          · exact absurd hnone peekkeySs3_ne_none
          · exact absurd hnone (peekkeyCtrlstring_ne_none (by simp))
          · obtain ⟨body, final, hsplit, hfault⟩ := peekkeyCsi_none_iff.1 hnone
            subst hcsi
            exact ⟨[0x1b, 0x5b], rest, body, final, rfl, Or.inl rfl, hsplit, hfault⟩
      · simp only [csiPeekkey, if_neg hb0] at hnone
        split_ifs at hnone with hss3 hstring hcsi
        · exact absurd hnone peekkeySs3_ne_none
        · exact absurd hnone (peekkeyCtrlstring_ne_none (by simp))
        · obtain ⟨body, final, hsplit, hfault⟩ := peekkeyCsi_none_iff.1 hnone
          subst hcsi
          exact ⟨[0x9b], rest, body, final, rfl, Or.inr rfl, hsplit, hfault⟩
  · rintro ⟨intro, rest, body, final, rfl, rfl | rfl, hsplit, hfault⟩
    · exact peekkeyCsi_none_iff.2 ⟨body, final, hsplit, hfault⟩
    · exact peekkeyCsi_none_iff.2 ⟨body, final, hsplit, hfault⟩

end Driver

end MutantC.Libtermkey
