import MutantC.Libtermkey.CsiFaults
import MutantC.Libtermkey.TermkeyRuns

/-! A TermKey with the CSI driver alone accesses only what is its own, but for the sequences on which that
driver fails. -/

namespace MutantC.Libtermkey
open CBuffer Iteration StreamDecoder

/-- Behind any number of escapes stands a CSI sequence on which the driver fails. -/
def FaultAhead (s : Interpretation) (w : List Byte) : Prop :=
  ∃ n intro rest body final, w = List.replicate n 0x1b ++ (intro ++ rest) ∧ IsCsi intro ∧
    splitFinal rest = some (body, final) ∧ CsiFault s body final

section Reply
variable {s : Settings} {csi : TermKeyCsi} {force : Bool} {w : List Byte}

theorem simpleReply_ne_none (s : Interpretation) : simpleReply s csi w force ≠ none := by
  cases w with
  | nil => exact Option.some_ne_none _
  | cons b0 rest =>
    rw [simpleReply]
    split_ifs
    · exact Option.some_ne_none _
    · obtain ⟨emit, hemit⟩ := emitCodepoint_isSome s (show (0 : ℤ) ≤ b0.toNat by omega)
      rw [hemit]
      exact Option.some_ne_none _
    · unfold utf8Reply
      cases hparse : parseUtf8 b0 rest with
      | key cp nbytes =>
        obtain ⟨emit, hemit⟩ := emitCodepoint_isSome s (parseUtf8_key_nonneg hparse)
        simp only [hemit]
        exact Option.some_ne_none _
      | again cp =>
        dsimp only
        split_ifs
        · obtain ⟨emit, hemit⟩ := emitCodepoint_isSome s (show (0 : ℤ) ≤ utf8Invalid by decide)
          rw [hemit]
          exact Option.some_ne_none _
        · obtain ⟨emit, hemit⟩ := emitCodepoint_isSome s (parseUtf8_again_nonneg hparse)
          rw [hemit]
          exact Option.some_ne_none _
    · exact Option.some_ne_none _

theorem faultAhead_iff : FaultAhead s.toInterpretation w ↔ csiPeekkey s.toInterpretation csi w force = none ∨
    ∃ b rest, w = 0x1b :: b :: rest ∧ csiPeekkey s.toInterpretation csi w force = some (.undecided .none id csi) ∧
      FaultAhead s.toInterpretation (b :: rest) := by
  rw [csiPeekkey_none_iff]
  constructor
  · rintro ⟨n, intro, rest, body, final, rfl, hintro, hsplit, hfault⟩
    cases n with
    | zero => exact Or.inl ⟨intro, rest, body, final, rfl, hintro, hsplit, hfault⟩
    | succ n =>
      have hbehind : ∃ b tail, List.replicate n 0x1b ++ (intro ++ rest) = b :: tail ∧ (b = 0x1b ∨ b = 0x9b) := by
        cases n with
        | zero =>
          rcases hintro with rfl | rfl
          · exact ⟨_, _, rfl, Or.inl rfl⟩
          · exact ⟨_, _, rfl, Or.inr rfl⟩
        | succ n => exact ⟨_, _, rfl, Or.inl rfl⟩
      obtain ⟨b, tail, heq, hb⟩ := hbehind
      refine Or.inr ⟨b, tail, by rw [List.replicate_succ, List.cons_append, heq], ?_,
        n, intro, rest, body, final, heq.symm, hintro, hsplit, hfault⟩
      rw [List.replicate_succ, List.cons_append, heq]
      rcases hb with rfl | rfl
      · rfl
      · rfl
  · rintro (⟨intro, rest, body, final, heq, hfound⟩ | ⟨b, rest, rfl, -, n, intro, tail, body, final, heq, hfound⟩)
    · exact ⟨0, intro, rest, body, final, heq, hfound⟩
    · exact ⟨n + 1, intro, tail, body, final, by rw [heq]; rfl, hfound⟩

theorem simple_none_iff (ih : ∀ w' : List Byte, w'.length < w.length →
      (s.reply csi force w' = none ↔ FaultAhead s.toInterpretation w')) :
    s.simple csi force (s.reply csi force) w = none ↔
      ∃ b rest, w = 0x1b :: b :: rest ∧ FaultAhead s.toInterpretation (b :: rest) := by
  by_cases hesc : ∃ b rest, w = 0x1b :: b :: rest
  · obtain ⟨b, rest, rfl⟩ := hesc
    change Option.map _ (s.reply csi force (b :: rest)) = none ↔ _
    rw [Option.map_eq_none_iff, ih (b :: rest) (Nat.lt_succ_self _)]
    constructor
    · exact fun h => ⟨b, rest, rfl, h⟩
    · rintro ⟨b', rest', heq, h⟩
      cases heq
      exact h
  · have hsimple : s.simple csi force (s.reply csi force) w = simpleReply s.toInterpretation csi w force := by
      unfold Settings.simple
      split
      · exact absurd ⟨_, _, rfl⟩ hesc
      · rfl
    rw [hsimple]
    refine iff_of_false (simpleReply_ne_none _) ?_
    rintro ⟨b, rest, heq, -⟩
    exact hesc ⟨b, rest, heq⟩

/-- The TermKey fails where the CSI driver does, at the front or behind escapes. -/
theorem reply_none_iff (hs : s.drivers = [.csi]) : s.reply csi force w = none ↔ FaultAhead s.toInterpretation w := by
  induction hn : w.length using Nat.strongRecOn generalizing w with
  | ind n ih =>
    have hsimple : s.simple csi force (s.reply csi force) w = none ↔
        ∃ b rest, w = 0x1b :: b :: rest ∧ FaultAhead s.toInterpretation (b :: rest) :=
      simple_none_iff fun w' hlt => ih w'.length (hn ▸ hlt) rfl
    have hfault : FaultAhead s.toInterpretation w ↔ csiPeekkey s.toInterpretation csi w force = none ∨
        ∃ b rest, w = 0x1b :: b :: rest ∧
          csiPeekkey s.toInterpretation csi w force = some (.undecided .none id csi) ∧
          FaultAhead s.toInterpretation (b :: rest) := faultAhead_iff
    rw [hfault, Settings.reply_eq, hs, tryDrivers]
    change ((csiPeekkey s.toInterpretation csi w force).bind _).bind _ = none ↔ _
    cases hpeek : csiPeekkey s.toInterpretation csi w force with
    | none => simp
    | some r =>
      rw [hpeek] at hfault
      have hbehind : (∃ b rest, w = 0x1b :: b :: rest ∧ FaultAhead s.toInterpretation (b :: rest)) ↔
          ∃ b rest, w = 0x1b :: b :: rest ∧ some r = some (.undecided .none id csi) ∧
            FaultAhead s.toInterpretation (b :: rest) := by
        constructor
        · rintro ⟨b, rest, rfl, n, intro, tail, body, final, heq, hfound⟩
          exact (hfault.1 ⟨n + 1, intro, tail, body, final, by rw [heq]; rfl, hfound⟩).resolve_left
            (Option.some_ne_none r)
        · rintro ⟨b, rest, heq, -, h⟩
          exact ⟨b, rest, heq, h⟩
      rw [Option.bind_some, or_iff_right (Option.some_ne_none r), ← hbehind, ← hsimple]
      have hrest : r.res ≠ .none → s.simple csi force (s.reply csi force) w ≠ none := by
        intro hres hnone
        obtain ⟨-, -, -, heq, -⟩ := hbehind.1 (hsimple.1 hnone)
        cases heq
        exact hres rfl
      cases hres : r.res with
      | none => exact Option.map_eq_none_iff
      | again =>
        cases force with
        | false => exact iff_of_false (Option.some_ne_none _) (hrest (by rw [hres]; exact TermKeyResult.noConfusion))
        | true => exact Option.map_eq_none_iff
      | key => exact iff_of_false (Option.some_ne_none _) (hrest (by rw [hres]; exact TermKeyResult.noConfusion))
      | eof => exact iff_of_false (Option.some_ne_none _) (hrest (by rw [hres]; exact TermKeyResult.noConfusion))
      | error => exact iff_of_false (Option.some_ne_none _) (hrest (by rw [hres]; exact TermKeyResult.noConfusion))

end Reply

section Calls
variable {tk : TermKey}

theorem getkey_none_iff (h : tk.WellFormed) (hs : tk.drivers = [.csi]) :
    termkeyGetkey tk = none ↔ FaultAhead tk.toInterpretation tk.pending := by
  have hreply : tk.toSettings.reply tk.csi false tk.pending = none ↔ FaultAhead tk.toInterpretation tk.pending :=
    reply_none_iff hs
  rw [← hreply]
  constructor
  · intro hnone
    cases hr : tk.toSettings.reply tk.csi false tk.pending with
    | none => rfl
    | some r =>
      by_cases hkey : r.res = .key
      · obtain ⟨tk', hgot, -⟩ := getkey_of_key h hr hkey
        rw [hgot] at hnone
        cases hnone
      · obtain ⟨tk', store, hgot, -⟩ := getkey_of_not_key h (patient_csi hs) hr hkey
        rw [hgot] at hnone
        cases hnone
  · exact getkey_of_none h

theorem getkeyForce_none_iff (h : tk.WellFormed) (hs : tk.drivers = [.csi]) :
    termkeyGetkeyForce tk = none ↔ FaultAhead tk.toInterpretation tk.pending := by
  have hreply : tk.toSettings.reply tk.csi true tk.pending = none ↔ FaultAhead tk.toInterpretation tk.pending :=
    reply_none_iff hs
  rw [← hreply]
  constructor
  · intro hnone
    cases hr : tk.toSettings.reply tk.csi true tk.pending with
    | none => rfl
    | some r =>
      obtain ⟨p, hpeek, -⟩ := peekkey_of_reply h true hr
      rw [termkeyGetkeyForce, hpeek, Option.bind_eq_bind, Option.bind_some] at hnone
      cases hres : p.res <;> rw [hres] at hnone <;> cases hnone
  · exact getkeyForce_of_none h

end Calls

namespace KeySession
variable {tk₀ : TermKey} {st st' : KeySession}

/-- In every run a push succeeds, and a call for a key fails where a faulty sequence stands ahead and nowhere
else. -/
theorem run_fails_iff (h : tk₀.WellFormed) (hs : tk₀.drivers = [.csi]) {calls : List TermKeyCall}
    (hrun : run call ⟨tk₀, [], []⟩ calls = some st) : st.tk.Wrapped ∨ ∀ c, st.call c = none ↔
      (∀ bytes, c ≠ .pushBytes bytes) ∧ FaultAhead tk₀.toInterpretation st.tk.pending := by
  have hreached : st.tk.Wrapped ∨ Fifo tk₀ st :=
    run_keeps (fun _ hst => hst) (fun _ _ _ _ hst hcall => hst.call (patient_csi hs) hcall) (Fifo.start h) hrun
  refine hreached.imp_right fun hst => ?_
  have hdrivers : st.tk.drivers = [.csi] := (congrArg Settings.drivers hst.settings).trans hs
  intro c
  rw [← congrArg Settings.toInterpretation hst.settings]
  cases c with
  | pushBytes bytes =>
    refine iff_of_false ?_ fun hc => hc.1 bytes rfl
    obtain ⟨-, st', hcall, -⟩ := call_pushBytes hst.wellFormed bytes
    rw [hcall]
    exact Option.some_ne_none _
  | getkey =>
    rw [call, Option.map_eq_none_iff, getkey_none_iff hst.wellFormed hdrivers]
    exact (and_iff_right fun _ => TermKeyCall.noConfusion).symm
  | getkeyForce =>
    rw [call, Option.map_eq_none_iff, getkeyForce_none_iff hst.wellFormed hdrivers]
    exact (and_iff_right fun _ => TermKeyCall.noConfusion).symm

/-- A `u` sequence without an argument. -/
theorem run_fails_iff_u : ∃ tk₀ st, termkeyNewAbstract [.csi] 0 (fun _ => 0) = some tk₀ ∧
    run call ⟨tk₀, [], []⟩ [.pushBytes [0x1b, 0x1b, 0x5b, 0x75]] = some st ∧
    st.call .getkey = none ∧ FaultAhead tk₀.toInterpretation st.tk.pending := by
  obtain ⟨tk₀, hnew⟩ : ∃ tk₀, termkeyNewAbstract [.csi] 0 (fun _ => 0) = some tk₀ := ⟨_, rfl⟩
  obtain ⟨hwf, -, hdrivers⟩ := termkeyNewAbstract_wellFormed (by decide) hnew
  obtain ⟨st, hrun, heq⟩ : ∃ st, run call ⟨tk₀, [], []⟩ [.pushBytes [0x1b, 0x1b, 0x5b, 0x75]] = some st ∧
      (st.tk.buffstart, (st.call .getkey).isNone) = (0, true) := by
    cases hnew
    exact Option.map_eq_some_iff.1 (by decide +kernel)
  obtain ⟨hstart, hnone⟩ := Prod.mk.inj heq
  have hfails : st.call .getkey = none := Option.isNone_iff_eq_none.1 hnone
  refine ⟨tk₀, st, hnew, hrun, hfails, ?_⟩
  rcases run_fails_iff hwf hdrivers hrun with hwrapped | hcalls
  · exact absurd hstart hwrapped.start.ne
  · exact ((hcalls .getkey).1 hfails).2

theorem forced_empties (h : st.tk.WellFormed) {n : ℕ} (hn : st.tk.pending.length ≤ n)
    (hrun : run call st (List.replicate n .getkeyForce) = some st') :
    st'.tk.WellFormed ∧ st'.tk.pending = [] ∧ st'.keys.length ≤ st.keys.length + st.tk.pending.length := by
  induction n generalizing st with
  | zero =>
    cases hrun
    exact ⟨h, List.eq_nil_of_length_eq_zero (Nat.le_zero.1 hn), Nat.le_add_right _ _⟩
  | succ n ih =>
    obtain ⟨st₁, hcall, hrest⟩ := Option.bind_eq_some_iff.1 hrun
    obtain ⟨⟨res, tk, store⟩, hgot, rfl⟩ := Option.map_eq_some_iff.1 hcall
    rcases getkeyForce_some h hgot with ⟨rfl, m, hpos, hm, htook⟩ | ⟨hres, hempty, htook, -⟩
    · have hleft : tk.pending.length = st.tk.pending.length - m := by
        rw [htook.pending, List.length_drop]
      obtain ⟨hwf, hnone, hkeys⟩ := ih htook.wellFormed (by simp only [got]; omega) hrest
      refine ⟨hwf, hnone, ?_⟩
      simp only [got, if_true, List.length_append, List.length_singleton] at hkeys
      omega
    · have hleft : tk.pending.length = st.tk.pending.length := by
        rw [htook.pending, List.drop_zero]
      obtain ⟨hwf, hnone, hkeys⟩ := ih htook.wellFormed (by simp only [got, hleft, hempty]; simp) hrest
      refine ⟨hwf, hnone, ?_⟩
      simp only [got, if_neg hres] at hkeys
      omega

theorem forced_returns (h : st.tk.WellFormed) (hs : st.tk.drivers = [.csi])
    (hfault : ∀ w, w <:+ st.tk.pending → ¬ FaultAhead st.tk.toInterpretation w) (n : ℕ) :
    ∃ st', run call st (List.replicate n .getkeyForce) = some st' := by
  induction n generalizing st with
  | zero => exact ⟨st, rfl⟩
  | succ n ih =>
    cases hgot : termkeyGetkeyForce st.tk with
    | none => exact absurd ((getkeyForce_none_iff h hs).1 hgot) (hfault _ List.suffix_rfl)
    | some out =>
      obtain ⟨res, tk, store⟩ := out
      obtain ⟨m, htook⟩ : ∃ m, st.tk.Took m tk := by
        rcases getkeyForce_some h hgot with ⟨-, m, -, -, htook⟩ | ⟨-, -, htook, -⟩
        · exact ⟨m, htook⟩
        · exact ⟨0, htook⟩
      have hdrivers : tk.drivers = [.csi] := (congrArg Settings.drivers htook.settings).trans hs
      have hlater : ∀ w, w <:+ tk.pending → ¬ FaultAhead tk.toInterpretation w := by
        intro w hw
        rw [htook.pending] at hw
        rw [congrArg Settings.toInterpretation htook.settings]
        exact hfault w (hw.trans (List.drop_suffix m _))
      obtain ⟨st', hrun⟩ : ∃ st', run call (st.got (res, tk, store)) (List.replicate n .getkeyForce) = some st' :=
        ih htook.wellFormed hdrivers hlater
      exact ⟨st', by rw [List.replicate_succ, run, call, hgot, Option.map_some, Option.bind_some, hrun]⟩

/-- Forced calls that return empty the buffer, and with the CSI driver alone they return, but for a faulty
sequence. -/
theorem run_force_empties (h : st.tk.WellFormed) {n : ℕ} (hn : st.tk.pending.length ≤ n) :
    (∀ st', run call st (List.replicate n .getkeyForce) = some st' →
      st'.tk.WellFormed ∧ st'.tk.pending = [] ∧ st'.keys.length ≤ st.keys.length + st.tk.pending.length) ∧
    (st.tk.drivers = [.csi] → (∀ w, w <:+ st.tk.pending → ¬ FaultAhead st.tk.toInterpretation w) →
      ∃ st', run call st (List.replicate n .getkeyForce) = some st') :=
  ⟨fun _ hrun => forced_empties h hn hrun, fun hs hfault => forced_returns h hs hfault n⟩

/-- `ESC O`, the beginning of a sequence. -/
theorem run_force_empties_ss3 : ∃ st st', st.tk.pending = [0x1b, 0x4f] ∧
    run call st (List.replicate 2 .getkeyForce) = some st' ∧ st'.tk.pending = [] := by
  obtain ⟨tk, hwf, hdrivers, hpending⟩ := exists_pending [.csi] (show ([0x1b, 0x4f] : List Byte).length ≤ 256 by decide)
  have hlen : (KeySession.mk tk [] []).tk.pending.length ≤ 2 := by
    change tk.pending.length ≤ 2
    rw [hpending]
    decide
  have hfault : ∀ w, w <:+ tk.pending → ¬ FaultAhead tk.toInterpretation w := by
    rintro w hw ⟨n, intro, rest, body, final, rfl, hintro, -, -⟩
    have hmem : 0x5b ∈ tk.pending ∨ 0x9b ∈ tk.pending := by
      rcases hintro with rfl | rfl
      · exact Or.inl (hw.subset (by simp))
      · exact Or.inr (hw.subset (by simp))
    rw [hpending] at hmem
    exact absurd hmem (by decide)
  obtain ⟨hempties, hreturns⟩ := run_force_empties hwf hlen
  obtain ⟨st', hrun⟩ := hreturns hdrivers hfault
  exact ⟨⟨tk, [], []⟩, st', hpending, hrun, (hempties st' hrun).2.1⟩

end KeySession

end MutantC.Libtermkey
