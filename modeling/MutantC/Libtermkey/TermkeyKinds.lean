import MutantC.Libtermkey.TermkeyStable

/-! The kinds of keys: in which ways the drivers and `peekkey_simple` fill in a key, and what they leave of the
key that was there. -/

namespace MutantC.Libtermkey
open CBuffer StreamDecoder Tries

def csiInfos : List KeyInfo :=
  csiSs3Keys.map Prod.snd ++ ss3Keys.map (fun e => e.2.1) ++ csifuncKeys.map Prod.snd

/-- The key comes from a table of the CSI driver, or from terminfo. -/
def Settings.Known (s : Settings) (info : KeyInfo) : Prop :=
  info ∈ csiInfos ∨ ∃ root, Driver.ti root ∈ s.drivers

/-- A key is made by what is stored in it, and leaves the CSI driver as it is said here. -/
inductive Made (s : Settings) (csi : TermKeyCsi) : (TermKeyKey → TermKeyKey) → TermKeyCsi → Prop
  | codepoint {codepoint : ℤ} {emit : TermKeyKey → TermKeyKey}
    (h : emitCodepoint s.toInterpretation codepoint = some emit) : Made s csi emit csi
  /-- A byte that stands for itself, or the alternative of a key of the keypad. -/
  | byte (b : Byte) : Made s csi (fun key =>
      storeUtf8 [b] { key with type := .unicode, code := .codepoint b.toNat, modifiers := 0 }) csi
  | info {info : KeyInfo} (h : s.Known info) (modifiers : BitVec 32) : Made s csi (info.store modifiers) csi
  /-- A mouse key, a report, a function key without modifiers, or a sequence that is not known. -/
  | report {store : TermKeyKey → TermKeyKey} (type : TermKeyType)
    (htype : type = .function ∨ type = .mouse ∨ type = .position ∨ type = .modereport ∨ type = .unknownCsi)
    (hstore : ∀ key, (store key).type = type) : Made s csi store csi
  | string {store : TermKeyKey → TermKeyKey} {csi' : TermKeyCsi} (type : TermKeyType)
    (htype : type = .dcs ∨ type = .osc) (hid : csi'.savedStringId = csi.savedStringId + 1)
    (hstore : ∀ key, (store key).type = type) : Made s csi store csi'
  | modified {store : TermKeyKey → TermKeyKey} {csi' : TermKeyCsi} (h : Made s csi store csi') (m : BitVec 32) :
    Made s csi (addModifiers m ∘ store) csi'
  /-- Others were stored before. -/
  | after {store : TermKeyKey → TermKeyKey} {csi' : TermKeyCsi} (h : Made s csi store csi')
    (before : TermKeyKey → TermKeyKey) : Made s csi (store ∘ before) csi'

section Codepoints
variable {s : Interpretation}

def Alike (key key' : TermKeyKey) : Prop :=
  key.type = key'.type ∧ key.code = key'.code ∧ key.modifiers = key'.modifiers

theorem alike_fillUtf8 (key : TermKeyKey) : Alike (fillUtf8 key) key := by
  unfold fillUtf8
  split
  · exact ⟨rfl, rfl, rfl⟩
  · exact ⟨rfl, rfl, rfl⟩

theorem alike_fillUnicode (key : TermKeyKey) : Alike (fillUnicode key) key := by
  unfold fillUnicode
  split_ifs
  · exact alike_fillUtf8 key
  · exact ⟨rfl, rfl, rfl⟩

theorem canonicalise_type {canonflags : BitVec 32} {key : TermKeyKey} (h : key.type = .unicode ∨ key.type = .keysym) :
    (termkeyCanonicalise canonflags key).type = .unicode ∨ (termkeyCanonicalise canonflags key).type = .keysym := by
  have hspace : ∀ key' : TermKeyKey, key'.type = .unicode ∨ key'.type = .keysym →
      (if HasFlag canonflags canonDelbs ∧ key'.type = .keysym ∧ key'.code = .sym Sym.del.val then
        { key' with code := .sym Sym.backspace.val } else key').type = .unicode ∨
      (if HasFlag canonflags canonDelbs ∧ key'.type = .keysym ∧ key'.code = .sym Sym.del.val then
        { key' with code := .sym Sym.backspace.val } else key').type = .keysym := by
    intro key' hkey'
    split_ifs
    · exact hkey'
    · exact hkey'
  unfold termkeyCanonicalise
  apply hspace
  split_ifs
  · exact Or.inr rfl
  · exact h
  · rw [(alike_fillUtf8 _).1]
    exact Or.inl rfl
  · exact h

theorem canonicalise_alike {key key' : TermKeyKey} (h : Alike key key') (canonflags : BitVec 32) :
    Alike (termkeyCanonicalise canonflags key) (termkeyCanonicalise canonflags key') := by
  have hdelbs : ∀ {key key' : TermKeyKey}, Alike key key' → Alike
      (if HasFlag canonflags canonDelbs ∧ key.type = .keysym ∧ key.code = .sym Sym.del.val then
        { key with code := .sym Sym.backspace.val } else key)
      (if HasFlag canonflags canonDelbs ∧ key'.type = .keysym ∧ key'.code = .sym Sym.del.val then
        { key' with code := .sym Sym.backspace.val } else key') := by
    rintro key key' ⟨htype, hcode, hmodifiers⟩
    rw [htype, hcode]
    split_ifs
    · exact ⟨rfl, rfl, hmodifiers⟩
    · exact ⟨htype, hcode, hmodifiers⟩
  obtain ⟨htype, hcode, hmodifiers⟩ := h
  unfold termkeyCanonicalise
  apply hdelbs
  rw [htype, hcode]
  split_ifs
  · exact ⟨rfl, rfl, hmodifiers⟩
  · exact ⟨htype, hcode, hmodifiers⟩
  · exact ⟨rfl, rfl, hmodifiers⟩
  · exact ⟨htype, hcode, hmodifiers⟩

theorem codepointKey_type {codepoint : ℤ} {type : TermKeyType} {code : Code} {modifiers : BitVec 32}
    (h : codepointKey s codepoint = some (type, code, modifiers)) : type = .unicode ∨ type = .keysym := by
  unfold codepointKey at h
  split_ifs at h
  · cases h
    exact Or.inr rfl
  · obtain ⟨info, -, hkey⟩ := Option.map_eq_some_iff.1 h
    unfold c0Key at hkey
    split_ifs at hkey
    · cases hkey
      exact Or.inl rfl
    · cases hkey
      exact Or.inl rfl
    · cases hkey
      exact Or.inr rfl
  · cases h
    exact Or.inr rfl
  · cases h
    exact Or.inl rfl
  · cases h
    exact Or.inl rfl
  · cases h
    exact Or.inl rfl

theorem emitCodepoint_type {codepoint : ℤ} {emit : TermKeyKey → TermKeyKey} (h : emitCodepoint s codepoint = some emit)
    (key : TermKeyKey) : (emit key).type = .unicode ∨ (emit key).type = .keysym := by
  obtain ⟨⟨type, code, modifiers⟩, hfound, rfl⟩ := Option.map_eq_some_iff.1 h
  rw [(alike_fillUnicode _).1]
  exact canonicalise_type (codepointKey_type hfound)

theorem emitCodepoint_alike {codepoint : ℤ} {emit : TermKeyKey → TermKeyKey} (h : emitCodepoint s codepoint = some emit)
    (key key' : TermKeyKey) : Alike (emit key) (emit key') := by
  obtain ⟨⟨type, code, modifiers⟩, -, rfl⟩ := Option.map_eq_some_iff.1 h
  have hkeys : Alike { key with type, code, modifiers } { key' with type, code, modifiers } := ⟨rfl, rfl, rfl⟩
  obtain ⟨htype, hcode, hmodifiers⟩ := canonicalise_alike hkeys s.canonflags
  obtain ⟨htype₁, hcode₁, hmodifiers₁⟩ := alike_fillUnicode (termkeyCanonicalise s.canonflags { key with type, code, modifiers })
  obtain ⟨htype₂, hcode₂, hmodifiers₂⟩ := alike_fillUnicode (termkeyCanonicalise s.canonflags { key' with type, code, modifiers })
  exact ⟨htype₁.trans (htype.trans htype₂.symm), hcode₁.trans (hcode.trans hcode₂.symm),
    hmodifiers₁.trans (hmodifiers.trans hmodifiers₂.symm)⟩

end Codepoints

section Tables

theorem lookup_getD {α β : Type*} [BEq α] {table : List (α × β)} {P : β → Prop} (htable : ∀ e ∈ table, P e.2)
    {default : β} (hdefault : P default) (a : α) : P ((table.lookup a).getD default) := by
  induction table with
  | nil => exact hdefault
  | cons e table ih =>
    obtain ⟨he, htable⟩ := List.forall_mem_cons.1 htable
    rw [List.lookup_cons]
    split
    · exact he
    · exact ih htable

theorem csiSs3s_mem {cmd : Byte} : (csiSs3s cmd).sym ≠ symUnknown → csiSs3s cmd ∈ csiInfos :=
  lookup_getD (P := fun info => info.sym ≠ symUnknown → info ∈ csiInfos)
    (fun _ he _ => List.mem_append_left _ (List.mem_append_left _ (List.mem_map_of_mem he)))
    (fun hne => absurd rfl hne) cmd

theorem csifuncs_mem {number : ℤ} : (csifuncs number).sym ≠ symUnknown → csifuncs number ∈ csiInfos :=
  lookup_getD (P := fun info => info.sym ≠ symUnknown → info ∈ csiInfos)
    (fun _ he _ => List.mem_append_right _ (List.mem_map_of_mem he)) (fun hne => absurd rfl hne) number.toNat

theorem ss3s_mem {cmd : Byte} (h : (ss3s cmd).sym ≠ symUnknown) : ss3s cmd ∈ csiInfos := by
  have hall : ((ss3Keys.lookup cmd).getD (keyinfoUnknown, 0)).1.sym ≠ symUnknown →
      ((ss3Keys.lookup cmd).getD (keyinfoUnknown, 0)).1 ∈ csiInfos :=
    lookup_getD (P := fun e : KeyInfo × Byte => e.1.sym ≠ symUnknown → e.1 ∈ csiInfos)
      (fun e he _ => List.mem_append_left _ (List.mem_append_right _ (List.mem_map.2 ⟨e, he, rfl⟩)))
      (fun hne => absurd rfl hne) cmd
  have hsame : ss3s cmd = ((ss3Keys.lookup cmd).getD (keyinfoUnknown, 0)).1 := by
    unfold ss3s
    cases ss3Keys.lookup cmd with
    | none => rfl
    | some found => rfl
  rw [hsame] at h ⊢
  exact hall h

theorem KeyInfo.result_key {info : KeyInfo} (h : info.result = .key) : info.sym ≠ symUnknown := by
  unfold KeyInfo.result at h
  split_ifs at h with hsym
  exact hsym

end Tables

section Made
variable {s : Settings} {csi : TermKeyCsi} {force : Bool} {w : List Byte} {r : Reply}

theorem handleCsiSs3Full_made {cmd : CsiCmd} {args : List ℤ} {store : TermKeyKey → TermKeyKey}
    (h : handleCsiSs3Full cmd args = some (.key, store)) : Made s csi store csi := by
  unfold handleCsiSs3Full at h
  split_ifs at h
  obtain ⟨hres, rfl⟩ := Prod.mk.inj (Option.some.inj h)
  exact .info (Or.inl (csiSs3s_mem (KeyInfo.result_key hres))) _

theorem handleCsi_made {cmd : CsiCmd} {args : List ℤ} {store : TermKeyKey → TermKeyKey}
    (h : handleCsi s.toInterpretation cmd args = some (.key, store)) : Made s csi store csi := by
  unfold handleCsi at h
  split at h
  · cases h
  · exact handleCsiSs3Full_made h
  · obtain ⟨arg, -, h⟩ := Option.bind_eq_some_iff.1 h
    split_ifs at h
    · obtain ⟨codepoint, -, h⟩ := Option.bind_eq_some_iff.1 h
      obtain ⟨emit, hemit, h⟩ := Option.bind_eq_some_iff.1 h
      obtain ⟨-, rfl⟩ := Prod.mk.inj (Option.some.inj h)
      exact (Made.codepoint hemit).modified _
    · obtain ⟨hres, rfl⟩ := Prod.mk.inj (Option.some.inj h)
      exact .info (Or.inl (csifuncs_mem (KeyInfo.result_key hres))) _
    · cases h
  · unfold handleCsiU at h
    split_ifs at h
    · obtain ⟨arg, -, h⟩ := Option.bind_eq_some_iff.1 h
      obtain ⟨emit, hemit, h⟩ := Option.bind_eq_some_iff.1 h
      cases h
      exact (Made.codepoint hemit).modified _
    · cases h
  · unfold handleCsiM at h
    split at h
    · dsimp only at h
      split_ifs at h
      all_goals cases h
      all_goals exact .report .mouse (Or.inr (Or.inl rfl)) fun _ => rfl
    · cases h
  · unfold handleCsiR at h
    split_ifs at h
    · split at h
      all_goals cases h
      · exact .report .function (Or.inl rfl) fun _ => rfl
      · exact .report .position (Or.inr (Or.inr (Or.inl rfl))) fun _ => rfl
    · exact handleCsiSs3Full_made h
  · unfold handleCsiY at h
    split_ifs at h
    · split at h
      all_goals cases h
      exact .report .modereport (Or.inr (Or.inr (Or.inr (Or.inl rfl)))) fun _ => rfl
    · cases h

theorem peekkeyMouse_made {skipped : ℕ} (hkey : (peekkeyMouse csi w skipped).res = .key) :
    Made s csi (peekkeyMouse csi w skipped).store (peekkeyMouse csi w skipped).csi := by
  unfold peekkeyMouse at hkey ⊢
  split at hkey
  · exact .report .mouse (Or.inr (Or.inl rfl)) fun _ => rfl
  · cases hkey

theorem peekkeyCsi_made {introlen : ℕ} (h : peekkeyCsi s.toInterpretation csi w introlen force = some r)
    (hkey : r.res = .key) : Made s csi r.store r.csi := by
  unfold peekkeyCsi at h
  split at h
  · split_ifs at h
    · obtain ⟨emit, hemit, rfl⟩ := Option.map_eq_some_iff.1 h
      exact (Made.codepoint hemit).modified _
    · cases h
      cases hkey
  · obtain ⟨⟨cmd, args⟩, -, h⟩ := Option.bind_eq_some_iff.1 h
    dsimp only at h
    split_ifs at h
    · cases h
      exact peekkeyMouse_made hkey
    · obtain ⟨⟨res, store⟩, hhandled, h⟩ := Option.bind_eq_some_iff.1 h
      cases h
      unfold csiReply at hkey ⊢
      split_ifs at hkey ⊢ with hnone
      · exact .report .unknownCsi (Or.inr (Or.inr (Or.inr (Or.inr rfl)))) fun _ => rfl
      · cases hkey
        exact handleCsi_made hhandled

theorem peekkeySs3_made {introlen : ℕ} (h : peekkeySs3 s.toInterpretation csi w introlen force = some r)
    (hkey : r.res = .key) : Made s csi r.store r.csi := by
  unfold peekkeySs3 at h
  split at h
  · split_ifs at h
    · obtain ⟨emit, hemit, rfl⟩ := Option.map_eq_some_iff.1 h
      exact (Made.codepoint hemit).modified _
    · cases h
      cases hkey
  · split_ifs at h with hrange hfull halt hss3
    all_goals cases h
    · cases hkey
    · exact .info (Or.inl (csiSs3s_mem hfull)) _
    · exact .byte _
    · exact .info (Or.inl (ss3s_mem hss3)) _
    · cases hkey

theorem peekkeyCtrlstring_made {introlen : ℕ} (h : peekkeyCtrlstring csi w introlen = some r)
    (hkey : r.res = .key) : Made s csi r.store r.csi := by
  unfold peekkeyCtrlstring at h
  split at h
  · cases h
    cases hkey
  · obtain ⟨intro, -, h⟩ := Option.bind_eq_some_iff.1 h
    cases h
    refine .string (if intro.toNat % 32 = 0x10 then .dcs else .osc) ?_ rfl fun _ => rfl
    split_ifs
    · exact Or.inl rfl
    · exact Or.inr rfl

theorem undecided_made {res : TermKeyResult} (hres : res ≠ .key) (h : some (Reply.undecided res id csi) = some r)
    (hkey : r.res = .key) : Made s csi r.store r.csi := by
  cases h
  exact absurd hkey hres

theorem csiPeekkey_made (h : csiPeekkey s.toInterpretation csi w force = some r) (hkey : r.res = .key) :
    Made s csi r.store r.csi := by
  unfold csiPeekkey at h
  split at h
  · unfold Reply.empty at h
    split_ifs at h
    all_goals exact undecided_made TermKeyResult.noConfusion h hkey
  · split_ifs at h
    · split at h
      · exact undecided_made TermKeyResult.noConfusion h hkey
      · split_ifs at h
        · exact peekkeySs3_made h hkey
        · exact peekkeyCtrlstring_made h hkey
        · exact peekkeyCsi_made h hkey
        · exact undecided_made TermKeyResult.noConfusion h hkey
    · exact peekkeySs3_made h hkey
    · exact peekkeyCtrlstring_made h hkey
    · exact peekkeyCsi_made h hkey
    · exact undecided_made TermKeyResult.noConfusion h hkey

theorem tiWalk_made {root p : TrieNode} (hroot : Driver.ti root ∈ s.drivers) {pos : ℕ}
    (h : tiWalk csi force p pos w = some r) (hkey : r.res = .key) : Made s csi r.store r.csi := by
  induction w generalizing p pos with
  | nil =>
    refine undecided_made ?_ h hkey
    split_ifs
    · exact TermKeyResult.noConfusion
    · exact TermKeyResult.noConfusion
  | cons b w ih =>
    obtain ⟨next, -, h⟩ := Option.bind_eq_some_iff.1 h
    split at h
    · exact undecided_made TermKeyResult.noConfusion h hkey
    · cases h
      exact .info (Or.inr ⟨root, hroot⟩) _
    · cases h
      exact peekkeyMouse_made hkey
    · exact ih h

theorem driver_made {d : Driver} (hd : d ∈ s.drivers) (h : d.peekkey s.toInterpretation csi w force = some r)
    (hkey : r.res = .key) : Made s csi r.store r.csi := by
  cases d with
  | ti root =>
    cases w with
    | nil =>
      change some (Reply.empty s.toInterpretation csi) = some r at h
      unfold Reply.empty at h
      split_ifs at h
      all_goals exact undecided_made TermKeyResult.noConfusion h hkey
    | cons b w => exact tiWalk_made hd h hkey
  | csi => exact csiPeekkey_made h hkey

theorem tryDrivers_made {ds : List Driver} (hds : ∀ d ∈ ds, d ∈ s.drivers) {again : Bool}
    {store : TermKeyKey → TermKeyKey}
    (h : tryDrivers s.toInterpretation csi w force ds again store = some (.settled r)) (hkey : r.res = .key) :
    Made s csi r.store r.csi := by
  induction ds generalizing again store with
  | nil => cases h
  | cons d ds ih =>
    obtain ⟨hd, hds⟩ := List.forall_mem_cons.1 hds
    obtain ⟨r', hr', h⟩ := Option.bind_eq_some_iff.1 h
    split at h
    · exact ih hds h
    · exact ih hds h
    · cases h
      exact (driver_made hd hr' hkey).after store

theorem simpleReply_made (h : simpleReply s.toInterpretation csi w force = some r) (hkey : r.res = .key) :
    Made s csi r.store r.csi := by
  unfold simpleReply at h
  split at h
  · unfold Reply.empty at h
    split_ifs at h
    all_goals exact undecided_made TermKeyResult.noConfusion h hkey
  · split_ifs at h
    · exact undecided_made TermKeyResult.noConfusion h hkey
    · obtain ⟨emit, hemit, rfl⟩ := Option.map_eq_some_iff.1 h
      exact .codepoint hemit
    · unfold utf8Reply at h
      split at h
      · obtain ⟨emit, hemit, rfl⟩ := Option.map_eq_some_iff.1 h
        exact .codepoint hemit
      · split_ifs at h
        · obtain ⟨emit, hemit, rfl⟩ := Option.map_eq_some_iff.1 h
          exact .codepoint hemit
        · obtain ⟨emit, -, rfl⟩ := Option.map_eq_some_iff.1 h
          cases hkey
    · cases h
      exact .byte _

theorem escaped_res (r : Reply) : r.escaped.res = r.res := by
  unfold Reply.escaped
  split_ifs
  · rfl
  · rfl

theorem Made.escaped (hkey : r.res = .key) (h : Made s csi r.store r.csi) : Made s csi r.escaped.store r.escaped.csi := by
  rw [Reply.escaped, if_pos hkey]
  exact h.modified keymodAlt

theorem reply_made (h : s.reply csi force w = some r) (hkey : r.res = .key) : Made s csi r.store r.csi := by
  induction hn : w.length using Nat.strongRecOn generalizing w r with
  | ind n ih =>
    rw [Settings.reply_eq] at h
    obtain ⟨tried, htried, h⟩ := Option.bind_eq_some_iff.1 h
    split at h
    · cases h
      exact tryDrivers_made (fun _ hd => hd) htried hkey
    · cases h
      cases hkey
    · obtain ⟨r', hr', heq⟩ := Option.map_eq_some_iff.1 h
      cases heq
      have hmade : Made s csi r'.store r'.csi := by
        unfold Settings.simple at hr'
        split at hr'
        · obtain ⟨nested, hnested, rfl⟩ := Option.map_eq_some_iff.1 hr'
          have hkey' : nested.res = .key := (escaped_res nested).symm.trans hkey
          exact Made.escaped hkey' (ih _ (by rw [← hn]; exact Nat.lt_succ_self _) hnested hkey' rfl)
        · exact simpleReply_made hr' hkey
      exact hmade.after _

/-- The type of a key does not depend on what was there, nor what a unicode key or a symbol becomes; a position
report keeps a byte of it, and a report its modifiers. -/
theorem Made.overwrites {store : TermKeyKey → TermKeyKey} {csi' : TermKeyCsi} (h : Made s csi store csi')
    (key key' : TermKeyKey) : (store key).type = (store key').type ∧
      ((store key).type = .unicode ∨ (store key).type = .keysym →
        (store key).code = (store key').code ∧ (store key).modifiers = (store key').modifiers) := by
  induction h generalizing key key' with
  | codepoint hemit =>
    obtain ⟨htype, hcode, hmodifiers⟩ := emitCodepoint_alike hemit key key'
    exact ⟨htype, fun _ => ⟨hcode, hmodifiers⟩⟩
  | byte b => exact ⟨rfl, fun _ => ⟨rfl, rfl⟩⟩
  | info hknown modifiers => exact ⟨rfl, fun _ => ⟨rfl, rfl⟩⟩
  | report type htype hstore =>
    refine ⟨(hstore key).trans (hstore key').symm, fun hplain => ?_⟩
    rw [hstore key] at hplain
    rcases htype with rfl | rfl | rfl | rfl | rfl
    all_goals exact hplain.elim TermKeyType.noConfusion TermKeyType.noConfusion
  | string type htype hid hstore =>
    refine ⟨(hstore key).trans (hstore key').symm, fun hplain => ?_⟩
    rw [hstore key] at hplain
    rcases htype with rfl | rfl
    all_goals exact hplain.elim TermKeyType.noConfusion TermKeyType.noConfusion
  | modified h m ih =>
    obtain ⟨htype, hsame⟩ := ih key key'
    refine ⟨htype, fun hplain => ?_⟩
    obtain ⟨hcode, hmodifiers⟩ := hsame hplain
    exact ⟨hcode, congrArg (· ||| m) hmodifiers⟩
  | after h before ih => exact ih (before key) (before key')

end Made

end MutantC.Libtermkey
