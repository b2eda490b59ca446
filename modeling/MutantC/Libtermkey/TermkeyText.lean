import MutantC.Libtermkey.TermkeyRuns

/-! Text that is typed in UTF-8: what is written for a codepoint is read back, and comes out as one key. -/

namespace MutantC.Libtermkey
open CBuffer Iteration StreamDecoder

section Utf8
variable {cp : ℤ}

end Utf8

section Text
variable {s : Settings} {csi : TermKeyCsi} {force : Bool} {b : Byte} {w : List Byte}

/-- No sequence of terminfo begins with the byte. -/
def Settings.Leaves (s : Settings) (b : Byte) : Prop :=
  ∀ root, Driver.ti root ∈ s.drivers → lookupNext root b = some .null

theorem driver_leaves {d : Driver} (hb : ¬ Introducer b) (hd : ∀ root, d = .ti root → lookupNext root b = some .null) :
    d.peekkey s.toInterpretation csi (b :: w) force = some (.undecided .none id csi) := by
  cases d with
  | ti root =>
    have hnull : lookupNext root b = some .null := hd root rfl
    change tiWalk csi force root 0 (b :: w) = _
    rw [tiWalk, hnull]
    rfl
  | csi =>
    simp only [Introducer, not_or] at hb
    obtain ⟨h1b, h8f, h90, h9b, h9d⟩ := hb
    simp only [Driver.peekkey, csiPeekkey, h1b, h8f, h90, h9b, h9d, or_self, if_false]

theorem reply_leaves (hb : ¬ Introducer b) (hs : s.Leaves b) :
    s.reply csi force (b :: w) = simpleReply s.toInterpretation csi (b :: w) force := by
  have htry : ∀ ds : List Driver, (∀ d ∈ ds, d ∈ s.drivers) →
      tryDrivers s.toInterpretation csi (b :: w) force ds false id = some (.unsettled false id) := by
    intro ds hds
    induction ds with
    | nil => rfl
    | cons d ds ih =>
      have hd := List.forall_mem_cons.1 hds
      rw [tryDrivers, driver_leaves hb fun root heq => hs root (heq ▸ hd.1)]
      exact ih hd.2
  have hesc : b ≠ 0x1b := fun heq => hb (Or.inl heq)
  rw [Settings.reply_eq, htry s.drivers fun _ hd => hd, Option.bind_some, Settings.simple_of_head hesc]
  exact Option.map_id'

/-- Codepoints that are keys of their own, under any settings. -/
def Printable (s : Interpretation) (cp : ℤ) : Prop :=
  (0x20 ≤ cp ∧ cp < 0x7f ∨ 0xa0 ≤ cp) ∧ (cp = 0x20 → ¬ HasFlag s.canonflags canonSpacesymbol)

theorem emitCodepoint_printable {s : Interpretation} {cp : ℤ} {store : TermKeyKey → TermKeyKey} (h : Printable s cp)
    (hemit : emitCodepoint s cp = some store) (key : TermKeyKey) :
    store key = storeUtf8 (utf8Encode cp) { key with type := .unicode, code := .codepoint cp, modifiers := 0 } := by
  obtain ⟨hrange, hspace⟩ := h
  have hfound : codepointKey s cp = some (.unicode, .codepoint cp, 0) := by
    unfold codepointKey
    rw [if_neg (by omega), if_neg (by omega), if_neg (by omega)]
    split_ifs with h80 ha0
    · rfl
    · omega
    · rfl
  rw [emitCodepoint, hfound] at hemit
  cases hemit
  have hcanon : ∀ key : TermKeyKey, key.type = .unicode → key.code = .codepoint cp →
      termkeyCanonicalise s.canonflags key = key := by
    intro key htype hcode
    have hkeysym : key.type ≠ .keysym := by
      rw [htype]
      exact TermKeyType.noConfusion
    unfold termkeyCanonicalise
    rw [hcode]
    by_cases hflag : HasFlag s.canonflags canonSpacesymbol
    · have hne : Code.codepoint cp ≠ .codepoint 0x20 := fun heq => hspace (Code.codepoint.inj heq) hflag
      simp only [if_pos hflag, hne, hkeysym, and_false, false_and, if_false]
    · simp only [if_neg hflag, hkeysym, and_false, false_and, if_false]
  change fillUnicode (termkeyCanonicalise s.canonflags { key with type := .unicode, code := .codepoint cp, modifiers := 0 }) = _
  rw [hcanon _ rfl rfl]
  rfl

end Text

namespace KeySession
variable {tk₀ : TermKey} {st : KeySession}

end KeySession
end MutantC.Libtermkey
