import MutantC.Libtermkey.TermkeyDecode

/-! What a TermKey makes of the bytes waiting in it does not change when more arrive, unless it was waiting
for them; and a look in force mode at bytes it waits behind does no harm. -/

namespace MutantC.Libtermkey
open CBuffer StreamDecoder Tries

def Waits (out : Option Reply) : Prop := ∃ r, out = some r ∧ r.res = .again

/-- The bytes are left to another driver, or to a later time. -/
def Defers (out : Option Reply) : Prop := ∃ r, out = some r ∧ (r.res = .again ∨ r.res = .none)

/-- What stands in the buffer is stored behind none of the fields that a later call reads. -/
def Harmless (csi : TermKeyCsi) (out : Option Reply) : Prop :=
  ∃ r, out = some r ∧ r.hightide = none ∧ r.csi = csi

/-- A driver may answer otherwise when more bytes are there: it waits for them, or it is the CSI driver
with an escape. -/
def Driver.Expects (s : Interpretation) (csi : TermKeyCsi) (w : List Byte) (d : Driver) : Prop :=
  Waits (d.peekkey s csi w false) ∨ d = .csi ∧ w = [0x1b]

/-- The first bytes of the sequences of the CSI driver. -/
def Introducer (b : Byte) : Prop := b = 0x1b ∨ b = 0x8f ∨ b = 0x90 ∨ b = 0x9b ∨ b = 0x9d

instance (b : Byte) : Decidable (Introducer b) := by unfold Introducer; infer_instance

/-- The drivers do not cut into each other's sequences: where one may still answer, the later ones leave it
the bytes, and terminfo has no sequence with an escape in front of an introducer. -/
structure Settings.Patient (s : Settings) : Prop where
  defers : ∀ csi w, s.drivers.Pairwise fun d d' =>
    d.Expects s.toInterpretation csi w → Defers (d'.peekkey s.toInterpretation csi w false)
  plain : ∀ csi root b w, Driver.ti root ∈ s.drivers →
    Waits (tiPeekkey s.toInterpretation csi root (0x1b :: b :: w) false) → ¬ Introducer b

section Append
variable {s : Interpretation} {csi : TermKeyCsi} {w : List Byte} (c : List Byte)

theorem splitFinal_append {body : List Byte} {final : Byte} (h : splitFinal w = some (body, final)) :
    splitFinal (w ++ c) = some (body, final) := by
  induction w generalizing body with
  | nil => cases h
  | cons b w ih =>
    rw [splitFinal] at h
    rw [List.cons_append, splitFinal]
    split_ifs at h ⊢ with hb
    · exact h
    · obtain ⟨⟨body', final'⟩, hsplit, heq⟩ := Option.map_eq_some_iff.1 h
      cases heq
      rw [ih hsplit, Option.map_some]

theorem splitString_append {text : List Byte} {n : ℕ} (h : splitString w = some (text, n)) :
    splitString (w ++ c) = some (text, n) := by
  induction w generalizing text with
  | nil => cases h
  | cons b w ih =>
    rw [splitString] at h
    rw [List.cons_append, splitString]
    by_cases hst : b = 0x9c
    · rw [if_pos hst] at h ⊢
      exact h
    · rw [if_neg hst] at h ⊢
      cases w with
      | nil =>
        rw [if_neg (by simp)] at h
        cases h
      | cons d w =>
        rw [List.cons_append, List.head?_cons] at *
        split_ifs at h ⊢ with hesc
        · exact h
        · obtain ⟨⟨text', n'⟩, hsplit, heq⟩ := Option.map_eq_some_iff.1 h
          cases heq
          rw [ih hsplit, Option.map_some]

theorem peekkeyMouse_append {skipped : ℕ} (h : ¬ Waits (some (peekkeyMouse csi w skipped))) :
    peekkeyMouse csi (w ++ c) skipped = peekkeyMouse csi w skipped := by
  match w with
  | [] => exact absurd ⟨_, rfl, rfl⟩ h
  | [_] => exact absurd ⟨_, rfl, rfl⟩ h
  | [_, _] => exact absurd ⟨_, rfl, rfl⟩ h
  | _ :: _ :: _ :: _ => rfl

theorem peekkeyCsi_append {introlen : ℕ} (hle : introlen ≤ w.length)
    (h : ¬ Waits (peekkeyCsi s csi w introlen false)) :
    peekkeyCsi s csi (w ++ c) introlen false = peekkeyCsi s csi w introlen false := by
  unfold peekkeyCsi at h ⊢
  rw [List.drop_append_of_le_length hle]
  cases hsplit : splitFinal (w.drop introlen) with
  | none => exact absurd ⟨_, by rw [hsplit]; rfl, rfl⟩ h
  | some found =>
    obtain ⟨body, final⟩ := found
    have hlen := length_splitFinal hsplit
    rw [List.length_drop] at hlen
    rw [hsplit] at h
    rw [splitFinal_append c hsplit]
    cases hparse : parseCsi body final with
    | none => simp [hparse]
    | some parsed =>
      obtain ⟨cmd, args⟩ := parsed
      simp only [hparse, Option.bind_eq_bind, Option.bind_some] at h ⊢
      split_ifs at h ⊢ with hx10
      · rw [List.drop_append_of_le_length (by omega), peekkeyMouse_append c h]
      · rfl

theorem peekkeySs3_append {introlen : ℕ} (h : ¬ Waits (peekkeySs3 s csi w introlen false)) :
    peekkeySs3 s csi (w ++ c) introlen false = peekkeySs3 s csi w introlen false := by
  unfold peekkeySs3 at h ⊢
  cases hcmd : w[introlen]? with
  | none => exact absurd ⟨_, by rw [hcmd]; rfl, rfl⟩ h
  | some cmd =>
    have hlt := (List.getElem?_eq_some_iff.1 hcmd).1
    rw [List.getElem?_append_left hlt, hcmd]

theorem peekkeyCtrlstring_append {introlen : ℕ} (hpos : 0 < introlen) (hle : introlen ≤ w.length)
    (h : ¬ Waits (peekkeyCtrlstring csi w introlen)) :
    peekkeyCtrlstring csi (w ++ c) introlen = peekkeyCtrlstring csi w introlen := by
  unfold peekkeyCtrlstring at h ⊢
  rw [List.drop_append_of_le_length hle]
  cases hsplit : splitString (w.drop introlen) with
  | none => exact absurd ⟨_, by rw [hsplit], rfl⟩ h
  | some found =>
    obtain ⟨text, n⟩ := found
    rw [splitString_append c hsplit, List.getElem?_append_left (by omega)]

/-- The CSI driver tells a lone escape from its sequences by the byte behind it, and it alone. -/
theorem csiPeekkey_append (hw : w ≠ []) (hesc : w ≠ [0x1b]) (h : ¬ Waits (csiPeekkey s csi w false)) :
    csiPeekkey s csi (w ++ c) false = csiPeekkey s csi w false := by
  cases w with
  | nil => exact absurd rfl hw
  | cons b0 rest =>
    rw [List.cons_append]
    by_cases hb0 : b0 = 0x1b
    · subst hb0
      cases rest with
      | nil => exact absurd rfl hesc
      | cons b1 rest =>
        simp only [csiPeekkey, List.cons_append, if_true] at h ⊢
        split_ifs at h ⊢
        · exact peekkeySs3_append c h
        · exact peekkeyCtrlstring_append c (by omega) (by simp) h
        · exact peekkeyCsi_append c (by simp) h
        · rfl
    · simp only [csiPeekkey, if_neg hb0] at h ⊢
      split_ifs at h ⊢
      · exact peekkeySs3_append c h
      · exact peekkeyCtrlstring_append c (by omega) (by simp) h
      · exact peekkeyCsi_append c (by simp) h
      · rfl

theorem tiWalk_append {p : TrieNode} {pos : ℕ} (h : ¬ Waits (tiWalk csi false p pos w)) :
    tiWalk csi false p pos (w ++ c) = tiWalk csi false p pos w := by
  induction w generalizing p pos with
  | nil => exact absurd ⟨_, rfl, rfl⟩ h
  | cons b w ih =>
    rw [List.cons_append]
    unfold tiWalk at h ⊢
    cases hnext : lookupNext p b with
    | none => rfl
    | some next =>
      simp only [hnext, Option.bind_eq_bind, Option.bind_some] at h ⊢
      cases next with
      | null => rfl
      | leaf leaf =>
        cases leaf with
        | key info => rfl
        | mouse => exact congrArg some (peekkeyMouse_append c h)
      | arr min max kids => exact ih h

theorem tiPeekkey_append {root : TrieNode} (hw : w ≠ []) (h : ¬ Waits (tiPeekkey s csi root w false)) :
    tiPeekkey s csi root (w ++ c) false = tiPeekkey s csi root w false := by
  cases w with
  | nil => exact absurd rfl hw
  | cons b w => exact tiWalk_append c h

theorem driver_append (d : Driver) (hw : w ≠ []) (h : ¬ d.Expects s csi w) :
    d.peekkey s csi (w ++ c) false = d.peekkey s csi w false := by
  cases d with
  | ti root => exact tiPeekkey_append c hw fun hwaits => h (Or.inl hwaits)
  | csi => exact csiPeekkey_append c hw (fun hesc => h (Or.inr ⟨rfl, hesc⟩)) fun hwaits => h (Or.inl hwaits)

theorem tryDrivers_deferred {force : Bool} {ds : List Driver} (again : Bool) (store : TermKeyKey → TermKeyKey)
    (h : ∀ d ∈ ds, Defers (d.peekkey s csi w force)) :
    ∃ again' store', tryDrivers s csi w force ds again store = some (.unsettled again' store') ∧
      (again = true → again' = true) := by
  induction ds generalizing again store with
  | nil => exact ⟨again, store, rfl, id⟩
  | cons d ds ih =>
    obtain ⟨r, hr, hres | hres⟩ := h d List.mem_cons_self
    · obtain ⟨again', store', htried, hagain⟩ := ih (again || !force) (r.store ∘ store)
        fun d hd => h d (List.mem_cons_of_mem _ hd)
      refine ⟨again', store', ?_, fun ht => hagain (by rw [ht, Bool.true_or])⟩
      rw [tryDrivers, hr, Option.bind_eq_bind, Option.bind_some, hres]
      exact htried
    · obtain ⟨again', store', htried, hagain⟩ := ih again (r.store ∘ store)
        fun d hd => h d (List.mem_cons_of_mem _ hd)
      refine ⟨again', store', ?_, hagain⟩
      rw [tryDrivers, hr, Option.bind_eq_bind, Option.bind_some, hres]
      exact htried

theorem tryDrivers_append {ds : List Driver} {again : Bool} {store : TermKeyKey → TermKeyKey}
    (hds : ds.Pairwise fun d d' => d.Expects s csi w → Defers (d'.peekkey s csi w false)) (hw : w ≠ [])
    (h : ∀ again' store', tryDrivers s csi w false ds again store = some (.unsettled again' store') →
      again' = false ∧ w ≠ [0x1b]) :
    tryDrivers s csi (w ++ c) false ds again store = tryDrivers s csi w false ds again store := by
  induction ds generalizing again store with
  | nil => rfl
  | cons d ds ih =>
    obtain ⟨hd, hds⟩ := List.pairwise_cons.1 hds
    by_cases hexp : d.Expects s csi w
    · exfalso
      have hlater : ∀ d' ∈ ds, Defers (d'.peekkey s csi w false) := fun d' hmem => hd d' hmem hexp
      rcases hexp with ⟨r, hr, hres⟩ | ⟨rfl, rfl⟩
      · obtain ⟨again', store', htried, hagain⟩ := tryDrivers_deferred (again || !false) (r.store ∘ store)
          hlater
        have hfirst := (h again' store' (by
          rw [tryDrivers, hr, Option.bind_eq_bind, Option.bind_some, hres]
          exact htried)).1
        rw [hagain (by simp)] at hfirst
        cases hfirst
      · obtain ⟨again', store', htried, -⟩ := tryDrivers_deferred again (id ∘ store) hlater
        exact (h again' store' (by
          rw [tryDrivers]
          exact htried)).2 rfl
    · rw [tryDrivers] at h
      rw [tryDrivers, tryDrivers, driver_append c d hw hexp]
      cases hr : d.peekkey s csi w false with
      | none => rfl
      | some r =>
        rw [hr, Option.bind_eq_bind, Option.bind_some] at h
        simp only [Option.bind_eq_bind, Option.bind_some]
        split at h
        · exact ih hds h
        · exact ih hds h
        · rfl

theorem parseContinuation_append {nbytes left n : ℕ} {cp cp' : ℤ} {rest : List Byte}
    (h : parseContinuation nbytes left cp rest = .key cp' n) :
    parseContinuation nbytes left cp (rest ++ c) = .key cp' n := by
  induction left generalizing cp rest with
  | zero => exact h
  | succ left ih =>
    cases rest with
    | nil => cases h
    | cons cb rest =>
      rw [parseContinuation] at h
      rw [List.cons_append, parseContinuation]
      split_ifs at h ⊢
      · exact h
      · exact ih h

theorem parseUtf8_append {b0 : Byte} {rest : List Byte} {cp : ℤ} {n : ℕ}
    (h : parseUtf8 b0 rest = .key cp n) : parseUtf8 b0 (rest ++ c) = .key cp n := by
  unfold parseUtf8 at h ⊢
  split_ifs at h ⊢
  all_goals first
    | exact h
    | exact parseContinuation_append c h

theorem utf8Reply_append {b0 : Byte} {rest : List Byte}
    (h : ∀ r, utf8Reply s csi b0 rest false = some r → r.res = .key) :
    utf8Reply s csi b0 (rest ++ c) false = utf8Reply s csi b0 rest false := by
  unfold utf8Reply at h ⊢
  cases hparse : parseUtf8 b0 rest with
  | key cp nbytes => rw [parseUtf8_append c hparse]
  | again cp =>
    obtain ⟨emit, hemit⟩ := emitCodepoint_isSome s (parseUtf8_again_nonneg hparse)
    have hagain := h (.undecided .again emit csi) (by
      simp only [hparse, hemit]
      rfl)
    cases hagain

theorem simpleReply_append (h : ∀ r, simpleReply s csi w false = some r → r.res = .key) :
    simpleReply s csi (w ++ c) false = simpleReply s csi w false := by
  cases w with
  | nil => exact absurd (h _ rfl) (by unfold Reply.empty; split_ifs <;> exact TermKeyResult.noConfusion)
  | cons b0 rest =>
    by_cases hesc : b0 = 0x1b ∧ ¬ false
    · rw [simpleReply, if_pos hesc] at h
      exact absurd (h _ rfl) TermKeyResult.noConfusion
    · rw [simpleReply, if_neg hesc] at h
      rw [List.cons_append, simpleReply, simpleReply, if_neg hesc, if_neg hesc]
      by_cases hraw : b0 < 0xa0
      · rw [if_pos hraw, if_pos hraw]
      · rw [if_neg hraw] at h ⊢
        rw [if_neg hraw]
        by_cases hutf8 : HasFlag s.flags flagUtf8
        · rw [if_pos hutf8] at h ⊢
          rw [if_pos hutf8]
          exact utf8Reply_append c h
        · rw [if_neg hutf8, if_neg hutf8]

end Append

namespace Settings
variable {s : Settings} {csi : TermKeyCsi} {force : Bool} {w : List Byte}

theorem replyFuel_of_le {fuel m : ℕ} (hm : w.length < m) (hle : m ≤ fuel) :
    s.replyFuel csi force fuel w = s.replyFuel csi force m w := by
  induction m generalizing fuel w with
  | zero => exact absurd hm (Nat.not_lt_zero _)
  | succ m ih =>
    obtain ⟨f, rfl⟩ := Nat.exists_eq_add_one.2 (Nat.lt_of_lt_of_le m.succ_pos hle)
    have hsimple : s.simple csi force (s.replyFuel csi force f) w =
        s.simple csi force (s.replyFuel csi force m) w := by
      unfold simple
      split
      · rename_i b rest
        rw [ih (Nat.lt_of_succ_lt_succ hm) (Nat.le_of_succ_le_succ hle)]
      · rfl
    rw [replyFuel, replyFuel, hsimple]

theorem reply_eq (s : Settings) (csi : TermKeyCsi) (force : Bool) (w : List Byte) :
    s.reply csi force w = (tryDrivers s.toInterpretation csi w force s.drivers false id).bind fun tried =>
      match tried with
      | .settled r => some r
      | .unsettled true store => some (.undecided .again store csi)
      | .unsettled false store =>
        (s.simple csi force (s.reply csi force) w).map fun r => { r with store := r.store ∘ store } := by
  have hsimple : s.simple csi force (s.replyFuel csi force w.length) w =
      s.simple csi force (s.reply csi force) w := by
    unfold simple
    split
    · rename_i b rest
      rw [reply, List.length_cons]
    · rfl
  rw [reply, replyFuel, hsimple]
  rfl

theorem simple_of_head {nested : List Byte → Option Reply} {b : Byte} {rest : List Byte} (hb : b ≠ 0x1b) :
    s.simple csi force nested (b :: rest) = simpleReply s.toInterpretation csi (b :: rest) force := by
  unfold simple
  split
  · rename_i heq
    exact absurd (List.head_eq_of_cons_eq heq) hb
  · rfl

theorem tryDrivers_nil (s : Settings) (csi : TermKeyCsi) (force : Bool) (ds : List Driver) (again : Bool)
    (store : TermKeyKey → TermKeyKey) :
    (∃ r, tryDrivers s.toInterpretation csi [] force ds again store = some (.settled r) ∧ r.res = .eof) ∨
      ∃ store', tryDrivers s.toInterpretation csi [] force ds again store = some (.unsettled again store') := by
  induction ds generalizing store with
  | nil => exact Or.inr ⟨store, rfl⟩
  | cons d ds ih =>
    have hd : d.peekkey s.toInterpretation csi [] force = some (.empty s.toInterpretation csi) := by
      cases d <;> rfl
    rw [tryDrivers, hd, Option.bind_eq_bind, Option.bind_some]
    unfold Reply.empty
    split_ifs
    · exact Or.inl ⟨_, rfl, rfl⟩
    · exact ih _

theorem reply_nil (s : Settings) (csi : TermKeyCsi) (force : Bool) :
    ∃ r, s.reply csi force [] = some r ∧ (r.res = .eof ∨ r.res = .none) := by
  rw [reply_eq]
  rcases tryDrivers_nil s csi force s.drivers false id with ⟨r, hr, heof⟩ | ⟨store, hstore⟩
  · exact ⟨r, by rw [hr]; rfl, Or.inl heof⟩
  · refine ⟨_, by rw [hstore]; rfl, ?_⟩
    change (Reply.empty s.toInterpretation csi).res = .eof ∨ (Reply.empty s.toInterpretation csi).res = .none
    unfold Reply.empty
    split_ifs
    · exact Or.inl rfl
    · exact Or.inr rfl

theorem simple_append (c : List Byte) (hw : w ≠ [])
    (hnested : ∀ w' : List Byte, w'.length < w.length → (∀ r, s.reply csi false w' = some r → r.res = .key) →
      s.reply csi false (w' ++ c) = s.reply csi false w')
    (h : ∀ r, s.simple csi false (s.reply csi false) w = some r → r.res = .key) :
    s.simple csi false (s.reply csi false) (w ++ c) = s.simple csi false (s.reply csi false) w := by
  cases w with
  | nil => exact absurd rfl hw
  | cons b0 rest =>
    by_cases hb0 : b0 = 0x1b
    · subst hb0
      cases rest with
      | nil => exact absurd (h _ rfl) TermKeyResult.noConfusion
      | cons b1 rest =>
        refine congrArg (Option.map Reply.escaped) (hnested (b1 :: rest) (Nat.lt_succ_self _) fun r hr => ?_)
        have hkey := h r.escaped (by rw [simple, hr, Option.map_some])
        unfold Reply.escaped at hkey
        split_ifs at hkey with hres
        · exact hres
        · exact hkey
    · rw [simple_of_head hb0] at h
      rw [List.cons_append, simple_of_head hb0, simple_of_head hb0]
      exact simpleReply_append c h

theorem reply_append (hs : s.Patient) (c : List Byte) (h : ∀ r, s.reply csi false w = some r → r.res = .key) :
    s.reply csi false (w ++ c) = s.reply csi false w := by
  induction hn : w.length using Nat.strongRecOn generalizing w with
  | ind n ih =>
    by_cases hw : w = []
    · obtain ⟨r, hr, hempty⟩ := s.reply_nil csi false
      rw [hw] at h
      rw [h r hr] at hempty
      exact hempty.elim TermKeyResult.noConfusion TermKeyResult.noConfusion
    · rw [reply_eq] at h
      rw [reply_eq, reply_eq, tryDrivers_append c (hs.defers csi w) hw fun again store heq => by
        rw [heq] at h
        cases again with
        | true => exact absurd (h _ rfl) TermKeyResult.noConfusion
        | false => exact ⟨rfl, fun hesc => absurd (h _ (by rw [hesc]; rfl)) TermKeyResult.noConfusion⟩]
      cases htry : tryDrivers s.toInterpretation csi w false s.drivers false id with
      | none => rfl
      | some tried =>
        rcases tried with r | ⟨again, store⟩
        · rfl
        · cases again with
          | true => rfl
          | false =>
            rw [htry, Option.bind_some] at h
            have hsimple := simple_append c hw
              (fun w' hlt hkey => ih w'.length (hn ▸ hlt) hkey rfl) fun r hr =>
                h { r with store := r.store ∘ store } (by simp only [hr, Option.map_some])
            simp only [Option.bind_some, hsimple]

/-- A TermKey with drivers that do not cut into each other's sequences makes the same keys however its
bytes come in. -/
theorem front_sound (hs : s.Patient) : Sound s.front where
  taken := by
    intro csi w k n csi' h
    unfold front at h
    split at h
    · cases h
    · rename_i r hr
      split_ifs at h with hkey
      cases h
      have hfits := reply_fits hr
      exact ⟨Nat.add_pos_left (hfits.pos hkey) _, hfits.le hkey⟩
  item_append := by
    intro csi w k n csi' c h
    unfold front at h ⊢
    split at h
    · cases h
    · rename_i r hr
      split_ifs at h with hkey
      have hsame := reply_append hs c fun r' hr' => by
        rw [hr] at hr'
        cases hr'
        exact hkey
      rw [hsame, hr]
      exact (if_pos hkey).trans h
  fail_append := by
    intro csi w c h
    unfold front at h ⊢
    split at h
    · rename_i hnone
      have hsame := reply_append hs c fun r hr => by
        rw [hnone] at hr
        cases hr
      rw [hsame, hnone]
    · split_ifs at h

end Settings

end MutantC.Libtermkey
