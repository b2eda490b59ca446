import MutantC.Libtermkey.CsiReports
import MutantC.Libtermkey.TermkeyKinds

/-! The control strings: a device control string or an operating system command is reported as a key, and its
text can be asked for until the next one is reported. -/

namespace MutantC.Libtermkey
open CBuffer Iteration StreamDecoder

def TermKeyKey.IsString (key : TermKeyKey) : Prop := key.type = .dcs ∨ key.type = .osc

instance (key : TermKeyKey) : Decidable key.IsString := by unfold TermKeyKey.IsString; infer_instance

section Stores
variable {s : Settings} {csi csi' : TermKeyCsi} {store : TermKeyKey → TermKeyKey}

def Plain (store : TermKeyKey → TermKeyKey) : Prop := ∀ key, ¬ (store key).IsString

theorem not_isString_of_type {key : TermKeyKey} {type : TermKeyType} (h : key.type = type)
    (hdcs : type ≠ .dcs) (hosc : type ≠ .osc) : ¬ key.IsString := by
  rintro (heq | heq)
  · exact hdcs (h.symm.trans heq)
  · exact hosc (h.symm.trans heq)

/-- A key that is no control string leaves the driver as it was, and a control string has the next number. -/
def Counted (csi : TermKeyCsi) (store : TermKeyKey → TermKeyKey) (csi' : TermKeyCsi) : Prop :=
  (csi' = csi ∧ Plain store) ∨ (csi'.savedStringId = csi.savedStringId + 1 ∧ ∀ key, (store key).IsString)

theorem csiInfos_type {info : KeyInfo} (h : info ∈ csiInfos) : info.type ≠ .dcs ∧ info.type ≠ .osc := by
  have hall : ∀ info ∈ csiInfos, info.type ≠ .dcs ∧ info.type ≠ .osc := by decide
  exact hall info h

theorem Made.counted (hs : s.drivers = [.csi]) (h : Made s csi store csi') : Counted csi store csi' := by
  induction h with
  | codepoint hemit =>
    refine Or.inl ⟨rfl, fun key => ?_⟩
    rcases emitCodepoint_type hemit key with htype | htype
    · exact not_isString_of_type htype TermKeyType.noConfusion TermKeyType.noConfusion
    · exact not_isString_of_type htype TermKeyType.noConfusion TermKeyType.noConfusion
  | byte b =>
    exact Or.inl ⟨rfl, fun _ => not_isString_of_type rfl TermKeyType.noConfusion TermKeyType.noConfusion⟩
  | info hknown modifiers =>
    rcases hknown with htable | ⟨root, hroot⟩
    · obtain ⟨hdcs, hosc⟩ := csiInfos_type htable
      exact Or.inl ⟨rfl, fun _ => not_isString_of_type rfl hdcs hosc⟩
    · rw [hs, List.mem_singleton] at hroot
      cases hroot
  | report type htype hstore =>
    refine Or.inl ⟨rfl, fun key => not_isString_of_type (hstore key) ?_ ?_⟩
    · rcases htype with rfl | rfl | rfl | rfl | rfl
      all_goals exact TermKeyType.noConfusion
    · rcases htype with rfl | rfl | rfl | rfl | rfl
      all_goals exact TermKeyType.noConfusion
  | string type htype hid hstore =>
    refine Or.inr ⟨hid, fun key => ?_⟩
    rw [TermKeyKey.IsString, hstore key]
    exact htype
  | modified h m ih => exact ih
  | after h before ih =>
    rcases ih with ⟨hcsi, hplain⟩ | ⟨hid, hstring⟩
    · exact Or.inl ⟨hcsi, fun key => hplain (before key)⟩
    · exact Or.inr ⟨hid, fun key => hstring (before key)⟩

end Stores

namespace KeySession
variable {tk₀ : TermKey} {st st' : KeySession}

/-- What a call does to the control strings. -/
inductive Strung (st st' : KeySession) : Prop
  | kept (keys : st'.keys = st.keys) (csi : st'.tk.csi = st.tk.csi)
  | key (store : TermKeyKey → TermKeyKey) (keys : st'.keys = st.keys ++ [store]) (csi : st'.tk.csi = st.tk.csi)
    (plain : Plain store)
  | string (store : TermKeyKey → TermKeyKey) (keys : st'.keys = st.keys ++ [store])
    (id : st'.tk.csi.savedStringId = st.tk.csi.savedStringId + 1)
    (string : ∀ key, (store key).IsString)

theorem strung_of_counted {tk : TermKey} {r : Reply} (h : Counted st.tk.csi r.store r.csi) (hcsi : tk.csi = r.csi) :
    Strung st (st.got (.key, tk, r.store)) := by
  rcases h with ⟨hkept, hplain⟩ | ⟨hid, hstring⟩
  · exact .key r.store rfl (hcsi.trans hkept) hplain
  · rw [← hcsi] at hid
    exact .string r.store rfl hid hstring

theorem Fifo.strung (hs : tk₀.drivers = [.csi]) (hst : Fifo tk₀ st) {c : TermKeyCall} (hcall : st.call c = some st') :
    st'.tk.Wrapped ∨ Strung st st' := by
  have hdrivers : st.tk.drivers = [.csi] := (congrArg Settings.drivers hst.settings).trans hs
  cases c with
  | pushBytes bytes =>
    obtain ⟨took, hpushed, -, hkeys⟩ := pushBytes_pushed hst.wellFormed hcall
    exact Or.inr (.kept hkeys hpushed.csi)
  | getkey =>
    obtain ⟨⟨res, tk, store⟩, hgot, rfl⟩ := Option.map_eq_some_iff.1 hcall
    cases hr : st.tk.toSettings.reply st.tk.csi false st.tk.pending with
    | none =>
      rw [getkey_of_none hst.wellFormed hr] at hgot
      cases hgot
    | some r =>
      by_cases hkey : r.res = .key
      · obtain ⟨tk', hgot', -, hcsi⟩ := getkey_of_key hst.wellFormed hr hkey
        rw [hgot'] at hgot
        cases hgot
        exact Or.inr (strung_of_counted ((reply_made hr hkey).counted hdrivers) hcsi)
      · obtain ⟨tk', store', hgot', htook⟩ := getkey_of_not_key hst.wellFormed (patient_csi hdrivers) hr hkey
        rw [hgot'] at hgot
        cases hgot
        exact htook.imp_right fun hkept => .kept (if_neg hkey) hkept.2
  | getkeyForce =>
    obtain ⟨⟨res, tk, store⟩, hgot, rfl⟩ := Option.map_eq_some_iff.1 hcall
    cases hr : st.tk.toSettings.reply st.tk.csi true st.tk.pending with
    | none =>
      rw [getkeyForce_of_none hst.wellFormed hr] at hgot
      cases hgot
    | some r =>
      by_cases hkey : r.res = .key
      · obtain ⟨tk', hgot', -, hcsi⟩ := getkeyForce_of_key hst.wellFormed hr hkey
        rw [hgot'] at hgot
        cases hgot
        exact Or.inr (strung_of_counted ((reply_made hr hkey).counted hdrivers) hcsi)
      · rcases getkeyForce_some hst.wellFormed hgot with ⟨rfl, n, hpos, hle, -⟩ | ⟨hres, -, -, hcsi⟩
        · have hne : st.tk.pending ≠ [] := List.ne_nil_of_length_pos (lt_of_lt_of_le hpos hle)
          exact absurd (Settings.reply_force_key hne hr) hkey
        · exact Or.inr (.kept (if_neg hres) hcsi)

def controlStrings (keys : List (TermKeyKey → TermKeyKey)) : List (TermKeyKey → TermKeyKey) :=
  keys.filter fun store => (store zeroKey).IsString

theorem controlStrings_plain (keys : List (TermKeyKey → TermKeyKey)) {store : TermKeyKey → TermKeyKey} (h : Plain store) :
    controlStrings (keys ++ [store]) = controlStrings keys := by
  have hnone : [store].filter (fun store => (store zeroKey).IsString) = [] :=
    List.filter_cons_of_neg (by simpa using h zeroKey)
  rw [controlStrings, List.filter_append, hnone, List.append_nil]
  rfl

theorem controlStrings_string (keys : List (TermKeyKey → TermKeyKey)) {store : TermKeyKey → TermKeyKey}
    (h : (store zeroKey).IsString) : controlStrings (keys ++ [store]) = controlStrings keys ++ [store] := by
  have hone : [store].filter (fun store => (store zeroKey).IsString) = [store] :=
    List.filter_cons_of_pos (decide_eq_true h)
  rw [controlStrings, List.filter_append, hone]
  rfl

/-- The control strings of a run are numbered one by one, and without one the driver has stayed as it was. -/
structure Numbered (tk₀ : TermKey) (st : KeySession) : Prop where
  fifo : Fifo tk₀ st
  id : st.tk.csi.savedStringId = tk₀.csi.savedStringId + BitVec.ofNat 32 (controlStrings st.keys).length
  kept : controlStrings st.keys = [] → st.tk.csi = tk₀.csi

theorem Numbered.call (hs : tk₀.drivers = [.csi]) (hst : Numbered tk₀ st) {c : TermKeyCall}
    (hcall : st.call c = some st') : st'.tk.Wrapped ∨ Numbered tk₀ st' := by
  rcases hst.fifo.call (patient_csi hs) hcall with hwrapped | hfifo
  · exact Or.inl hwrapped
  rcases hst.fifo.strung hs hcall with hwrapped | hstrung
  · exact Or.inl hwrapped
  refine Or.inr ?_
  cases hstrung with
  | kept hkeys hcsi =>
    refine ⟨hfifo, ?_, ?_⟩
    · rw [hkeys, hcsi]
      exact hst.id
    · rw [hkeys, hcsi]
      exact hst.kept
  | key store hkeys hcsi hplain =>
    refine ⟨hfifo, ?_, ?_⟩
    · rw [hkeys, hcsi, controlStrings_plain _ hplain]
      exact hst.id
    · rw [hkeys, hcsi, controlStrings_plain _ hplain]
      exact hst.kept
  | string store hkeys hid hstring =>
    have hstrings := controlStrings_string st.keys (hstring zeroKey)
    refine ⟨hfifo, ?_, ?_⟩
    · rw [hkeys, hstrings, List.length_append, List.length_singleton, hid, hst.id, BitVec.ofNat_add, BitVec.add_assoc]
      rfl
    · rw [hkeys, hstrings]
      intro hnone
      exact absurd hnone (by simp)

theorem run_numbered (h : tk₀.WellFormed) (hs : tk₀.drivers = [.csi]) {calls : List TermKeyCall}
    (hrun : run call ⟨tk₀, [], []⟩ calls = some st) : st.tk.Wrapped ∨ Numbered tk₀ st :=
  run_keeps (fun _ hst => hst) (fun _ _ _ _ hst hcall => hst.call hs hcall)
    ⟨Fifo.start h, (BitVec.add_zero _).symm, fun _ => rfl⟩ hrun

end KeySession

section Report
variable {tk : TermKey} {intro text terminator rest : List Byte}

def IsStringIntro (intro : List Byte) : Prop :=
  intro = [0x1b, 0x50] ∨ intro = [0x1b, 0x5d] ∨ intro = [0x90] ∨ intro = [0x9d]

def IsTerminator (terminator : List Byte) : Prop := terminator = [0x9c] ∨ terminator = [0x1b, 0x5c]

theorem splitString_text (hst : 0x9c ∉ text) (hesc : ¬ [0x1b, 0x5c] <:+: text) (hterm : IsTerminator terminator)
    (rest : List Byte) : splitString (text ++ (terminator ++ rest)) = some (text, terminator.length) := by
  induction text with
  | nil =>
    rcases hterm with rfl | rfl
    · rfl
    · rfl
  | cons b text ih =>
    rw [List.mem_cons, not_or] at hst
    have htail : ¬ [0x1b, 0x5c] <:+: text := fun hin => hesc (hin.trans (List.suffix_cons b text).isInfix)
    have hno : ¬ (b = 0x1b ∧ (text ++ (terminator ++ rest)).head? = some 0x5c) := by
      rintro ⟨rfl, hhead⟩
      cases text with
      | nil =>
        rcases hterm with rfl | rfl
        · cases hhead
        · cases hhead
      | cons c text =>
        cases hhead
        exact hesc ⟨[], text, rfl⟩
    rw [List.cons_append, splitString, if_neg (Ne.symm hst.1), if_neg hno, ih hst.2 htail]
    rfl

theorem csiPeekkey_string {s : Settings} (csi : TermKeyCsi) (hintro : IsStringIntro intro) {w : List Byte} {n : ℕ}
    (hsplit : splitString w = some (text, n)) : ∃ store,
      csiPeekkey s.toInterpretation csi (intro ++ w) false = some (.found store (intro.length + text.length + n)
        ⟨csi.savedStringId + 1, some (savedBlock text)⟩) ∧
      ∀ key, (store key).IsString ∧ (store key).code = .sym (csi.savedStringId + 1).toInt := by
  have hdriver : csiPeekkey s.toInterpretation csi (intro ++ w) false =
      peekkeyCtrlstring csi (intro ++ w) intro.length := by
    rcases hintro with rfl | rfl | rfl | rfl
    all_goals rfl
  obtain ⟨b, hb⟩ : ∃ b, (intro ++ w)[intro.length - 1]? = some b := by
    rcases hintro with rfl | rfl | rfl | rfl
    all_goals exact ⟨_, rfl⟩
  rw [hdriver, peekkeyCtrlstring, List.drop_left, hsplit]
  dsimp only
  rw [hb, Option.bind_eq_bind, Option.bind_some]
  refine ⟨_, rfl, fun key => ⟨?_, rfl⟩⟩
  unfold TermKeyKey.IsString
  dsimp only
  split_ifs
  · exact Or.inl rfl
  · exact Or.inr rfl

theorem interpretString_of_isString {st : TermKey} {key : TermKeyKey} {id : BitVec 32} (hs : st.drivers = [.csi])
    (hkey : key.IsString) (hcode : key.code = .sym id.toInt) : termkeyInterpretString st key =
      if st.csi.savedStringId = id then (.key, st.csi.savedString) else (.none, none) := by
  have hdriver : ¬ ¬ st.drivers.any Driver.isCsi := by
    rw [hs]
    exact not_not.2 rfl
  rw [termkeyInterpretString, if_neg hdriver, if_neg fun hne => hkey.elim hne.1 hne.2, hcode]
  by_cases hid : st.csi.savedStringId = id
  · rw [if_pos hid, hid]
    exact if_neg fun hne => hne rfl
  · rw [if_neg hid]
    exact if_pos fun heq => hid (BitVec.toInt_inj.1 heq)

/-- A control string is reported as a key, and until the next one is reported the TermKey answers for it with
its text, whatever is pushed and whatever other keys are taken; from then on it does not answer for it, unless the
number of a later one has come round to it. -/
theorem interpretString_reported (h : tk.WellFormed) (hs : tk.drivers = [.csi]) (hintro : IsStringIntro intro)
    (hst : 0x9c ∉ text) (hesc : ¬ [0x1b, 0x5c] <:+: text) (hterm : IsTerminator terminator)
    (hpending : tk.pending = intro ++ (text ++ (terminator ++ rest))) :
    ∃ tk' got, termkeyGetkey tk = some (.key, tk', got) ∧ tk'.pending = rest ∧
      cstr (savedBlock text) = some (text.takeWhile (· ≠ 0)) ∧
      ∀ calls st, run KeySession.call ⟨tk', [], []⟩ calls = some st → st.tk.Wrapped ∨ ∀ key, (got key).IsString ∧
        (KeySession.controlStrings st.keys = [] →
          termkeyInterpretString st.tk (got key) = (.key, some (savedBlock text))) ∧
        (0 < (KeySession.controlStrings st.keys).length → (KeySession.controlStrings st.keys).length < 2 ^ 32 →
          termkeyInterpretString st.tk (got key) = (.none, none)) := by
  obtain ⟨store, hreply, hstring⟩ : ∃ store,
      tk.toSettings.reply tk.csi false tk.pending = some (.found store (intro.length + text.length + terminator.length)
        ⟨tk.csi.savedStringId + 1, some (savedBlock text)⟩) ∧
      ∀ key, (store key).IsString ∧ (store key).code = .sym (tk.csi.savedStringId + 1).toInt := by
    obtain ⟨store, hdriver, hstring⟩ :=
      csiPeekkey_string (s := tk.toSettings) tk.csi hintro (splitString_text hst hesc hterm rest)
    rw [← hpending] at hdriver
    exact ⟨store, reply_of_csi (.alone hs) hdriver rfl, hstring⟩
  obtain ⟨tk', hgot, htook, hcsi⟩ := getkey_of_key h hreply rfl
  have hrest : tk'.pending = rest := by
    have hlen : intro.length + text.length + terminator.length = (intro ++ text ++ terminator).length := by
      simp only [List.length_append]
    have hall : intro ++ (text ++ (terminator ++ rest)) = intro ++ text ++ terminator ++ rest := by
      simp only [List.append_assoc]
    rw [htook.pending, hpending, hall]
    simp only [Reply.found, Option.getD_none, Nat.add_zero, hlen]
    exact List.drop_left
  have hsaved : cstr (savedBlock text) = some (text.takeWhile (· ≠ 0)) := by
    have hzero : (0 : Byte) ∉ text.takeWhile (· ≠ 0) := fun hmem => by simpa using List.mem_takeWhile_imp hmem
    rw [savedBlock, List.append_assoc, ← List.replicate_succ']
    exact cstr_append hzero _
  refine ⟨tk', store, hgot, hrest, hsaved, fun calls st hrun => ?_⟩
  have hdrivers : tk'.drivers = [.csi] := (congrArg Settings.drivers htook.settings).trans hs
  refine (KeySession.run_numbered htook.wellFormed hdrivers hrun).imp_right fun hst key => ?_
  obtain ⟨hkey, hcode⟩ := hstring key
  have hanswer := interpretString_of_isString
    ((congrArg Settings.drivers hst.fifo.settings).trans hdrivers) hkey hcode
  refine ⟨hkey, fun hnone => ?_, fun hpos hlt => ?_⟩
  · rw [hanswer, hst.kept hnone, hcsi]
    exact if_pos rfl
  · rw [hanswer, if_neg]
    rw [hst.id, hcsi]
    intro heq
    have hzero := congrArg BitVec.toNat (add_eq_left.1 heq)
    rw [BitVec.toNat_ofNat, Nat.mod_eq_of_lt hlt] at hzero
    exact absurd hzero hpos.ne'

theorem interpretString_reported_title : ∃ tk tk' got,
    tk.pending = [0x1b, 0x5d] ++ ([0x32, 0x3b, 0x78] ++ ([0x1b, 0x5c] ++ [0x61])) ∧
      termkeyGetkey tk = some (.key, tk', got) ∧ tk'.pending = [0x61] ∧
      (tk'.Wrapped ∨ termkeyInterpretString tk' (got zeroKey) = (.key, some [0x32, 0x3b, 0x78, 0])) := by
  obtain ⟨tk, hwf, hdrivers, hpending⟩ := exists_pending [.csi]
    (show ([0x1b, 0x5d] ++ ([0x32, 0x3b, 0x78] ++ ([0x1b, 0x5c] ++ [0x61])) : List Byte).length ≤ 256 by decide)
  obtain ⟨tk', got, hgot, hrest, -, hruns⟩ := interpretString_reported hwf hdrivers (Or.inr (Or.inl rfl)) (by decide)
    (by decide) (Or.inr rfl) hpending
  refine ⟨tk, tk', got, hpending, hgot, hrest, (hruns [] ⟨tk', [], []⟩ rfl).imp_right fun hanswer => ?_⟩
  exact (hanswer zeroKey).2.1 rfl

end Report

end MutantC.Libtermkey
