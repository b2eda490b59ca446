import MutantC.Libtermkey.TermkeyStable

/-! A look at the buffer in force mode: it always finds a key, and where a look without force waits for more
bytes it leaves the TermKey as it was. -/

namespace MutantC.Libtermkey
open CBuffer StreamDecoder Tries

section Results
variable {s : Interpretation} {csi : TermKeyCsi} {w : List Byte} {force : Bool} {r : Reply}

theorem handleCsifunc_res {args : List ℤ} {handled : TermKeyResult × (TermKeyKey → TermKeyKey)}
    (h : handleCsifunc s args = some handled) : handled.1 = .none ∨ handled.1 = .key := by
  obtain ⟨arg, -, h⟩ := Option.bind_eq_some_iff.1 h
  split_ifs at h with h27 hrange
  · obtain ⟨codepoint, -, h⟩ := Option.bind_eq_some_iff.1 h
    obtain ⟨emit, -, h⟩ := Option.bind_eq_some_iff.1 h
    cases h
    dsimp only
    split_ifs
    · exact Or.inl rfl
    · exact Or.inr rfl
  · cases h
    dsimp only [KeyInfo.result]
    split_ifs
    · exact Or.inl rfl
    · exact Or.inr rfl
  · cases h
    exact Or.inl rfl

theorem handleCsiSs3Full_res {cmd : CsiCmd} {args : List ℤ}
    {handled : TermKeyResult × (TermKeyKey → TermKeyKey)} (h : handleCsiSs3Full cmd args = some handled) :
    handled.1 = .none ∨ handled.1 = .key := by
  unfold handleCsiSs3Full at h
  split_ifs at h
  cases h
  dsimp only [KeyInfo.result]
  split_ifs
  · exact Or.inl rfl
  · exact Or.inr rfl

theorem handleCsi_res {cmd : CsiCmd} {args : List ℤ} {handled : TermKeyResult × (TermKeyKey → TermKeyKey)}
    (h : handleCsi s cmd args = some handled) : handled.1 = .none ∨ handled.1 = .key := by
  unfold handleCsi at h
  split at h
  · cases h
    exact Or.inl rfl
  · exact handleCsiSs3Full_res h
  · exact handleCsifunc_res h
  · unfold handleCsiU at h
    split_ifs at h
    · obtain ⟨arg, -, h⟩ := Option.bind_eq_some_iff.1 h
      obtain ⟨emit, -, h⟩ := Option.bind_eq_some_iff.1 h
      cases h
      exact Or.inr rfl
    · cases h
      exact Or.inl rfl
  · unfold handleCsiM at h
    split at h
    · dsimp only at h
      split_ifs at h
      all_goals cases h
      · exact Or.inr rfl
      · exact Or.inr rfl
      · exact Or.inr rfl
      · exact Or.inl rfl
    · cases h
      exact Or.inl rfl
  · unfold handleCsiR at h
    split_ifs at h
    · split at h
      all_goals cases h
      · exact Or.inr rfl
      · exact Or.inr rfl
      · exact Or.inl rfl
    · exact handleCsiSs3Full_res h
  · unfold handleCsiY at h
    split_ifs at h
    · split at h
      all_goals cases h
      · exact Or.inr rfl
      · exact Or.inl rfl
    · cases h
      exact Or.inl rfl

def Driven (res : TermKeyResult) : Prop := res = .key ∨ res = .again ∨ res = .none

theorem peekkeyMouse_driven {skipped : ℕ} : Driven (peekkeyMouse csi w skipped).res := by
  unfold peekkeyMouse
  split
  · exact Or.inl rfl
  · exact Or.inr (Or.inl rfl)

theorem peekkeyCsi_driven {introlen : ℕ} (h : peekkeyCsi s csi w introlen force = some r) : Driven r.res := by
  unfold peekkeyCsi at h
  split at h
  · split_ifs at h
    · obtain ⟨emit, -, rfl⟩ := Option.map_eq_some_iff.1 h
      exact Or.inl rfl
    · cases h
      exact Or.inr (Or.inl rfl)
  · obtain ⟨⟨cmd, args⟩, -, h⟩ := Option.bind_eq_some_iff.1 h
    dsimp only at h
    split_ifs at h
    · cases h
      exact peekkeyMouse_driven
    · obtain ⟨handled, hhandled, h⟩ := Option.bind_eq_some_iff.1 h
      cases h
      unfold csiReply
      split_ifs with hnone
      · exact Or.inl rfl
      · exact Or.inl ((handleCsi_res hhandled).resolve_left hnone)

theorem peekkeySs3_driven {introlen : ℕ} (h : peekkeySs3 s csi w introlen force = some r) : Driven r.res := by
  unfold peekkeySs3 at h
  split at h
  · split_ifs at h
    · obtain ⟨emit, -, rfl⟩ := Option.map_eq_some_iff.1 h
      exact Or.inl rfl
    · cases h
      exact Or.inr (Or.inl rfl)
  · split_ifs at h
    all_goals cases h
    · exact Or.inr (Or.inr rfl)
    · exact Or.inl rfl
    · exact Or.inl rfl
    · exact Or.inl rfl
    · exact Or.inr (Or.inr rfl)

theorem peekkeyCtrlstring_driven {introlen : ℕ} (h : peekkeyCtrlstring csi w introlen = some r) :
    Driven r.res := by
  unfold peekkeyCtrlstring at h
  split at h
  · cases h
    exact Or.inr (Or.inl rfl)
  · obtain ⟨intro, -, h⟩ := Option.bind_eq_some_iff.1 h
    cases h
    exact Or.inl rfl

theorem csiPeekkey_driven (hw : w ≠ []) (h : csiPeekkey s csi w force = some r) : Driven r.res := by
  unfold csiPeekkey at h
  split at h
  · exact absurd rfl hw
  · split_ifs at h
    · split at h
      · cases h
        exact Or.inr (Or.inr rfl)
      · split_ifs at h
        · exact peekkeySs3_driven h
        · exact peekkeyCtrlstring_driven h
        · exact peekkeyCsi_driven h
        · cases h
          exact Or.inr (Or.inr rfl)
    · exact peekkeySs3_driven h
    · exact peekkeyCtrlstring_driven h
    · exact peekkeyCsi_driven h
    · cases h
      exact Or.inr (Or.inr rfl)

theorem tiWalk_driven {p : TrieNode} {pos : ℕ} (h : tiWalk csi force p pos w = some r) : Driven r.res := by
  induction w generalizing p pos with
  | nil =>
    cases h
    cases force
    · exact Or.inr (Or.inl rfl)
    · exact Or.inr (Or.inr rfl)
  | cons b w ih =>
    obtain ⟨next, -, h⟩ := Option.bind_eq_some_iff.1 h
    split at h
    · cases h
      exact Or.inr (Or.inr rfl)
    · cases h
      exact Or.inl rfl
    · cases h
      exact peekkeyMouse_driven
    · exact ih h

theorem driver_driven {d : Driver} (hw : w ≠ []) (h : d.peekkey s csi w force = some r) : Driven r.res := by
  cases d with
  | ti root =>
    cases w with
    | nil => exact absurd rfl hw
    | cons b w => exact tiWalk_driven h
  | csi => exact csiPeekkey_driven hw h

theorem tryDrivers_settled {ds : List Driver} {again : Bool} {store : TermKeyKey → TermKeyKey} (hw : w ≠ [])
    (h : tryDrivers s csi w force ds again store = some (.settled r)) : r.res = .key := by
  induction ds generalizing again store with
  | nil => cases h
  | cons d ds ih =>
    obtain ⟨r', hr', h⟩ := Option.bind_eq_some_iff.1 h
    split at h
    · exact ih h
    · exact ih h
    · rename_i hagain hnone
      cases h
      rcases driver_driven hw hr' with hres | hres | hres
      · exact hres
      · exact absurd hres hagain
      · exact absurd hres hnone

theorem tryDrivers_unsettled {ds : List Driver} {again again' : Bool} {store store' : TermKeyKey → TermKeyKey}
    (h : tryDrivers s csi w force ds again store = some (.unsettled again' store')) :
    ∀ d ∈ ds, Defers (d.peekkey s csi w force) := by
  induction ds generalizing again store with
  | nil => exact fun d hd => absurd hd List.not_mem_nil
  | cons d ds ih =>
    obtain ⟨r, hr, h⟩ := Option.bind_eq_some_iff.1 h
    split at h
    · rename_i hres
      exact List.forall_mem_cons.2 ⟨⟨r, hr, Or.inl hres⟩, ih h⟩
    · rename_i hres
      exact List.forall_mem_cons.2 ⟨⟨r, hr, Or.inr hres⟩, ih h⟩
    · cases h

theorem tryDrivers_again {ds : List Driver} {again : Bool} {store store' : TermKeyKey → TermKeyKey}
    (h : tryDrivers s csi w force ds again store = some (.unsettled true store')) :
    again = true ∨ force = false ∧ ∃ d ∈ ds, Waits (d.peekkey s csi w force) := by
  induction ds generalizing again store with
  | nil =>
    cases h
    exact Or.inl rfl
  | cons d ds ih =>
    have hlater : (∃ d' ∈ ds, Waits (d'.peekkey s csi w force)) →
        ∃ d' ∈ d :: ds, Waits (d'.peekkey s csi w force) := by
      rintro ⟨d', hmem, hwaits⟩
      exact ⟨d', List.mem_cons_of_mem _ hmem, hwaits⟩
    obtain ⟨r, hr, h⟩ := Option.bind_eq_some_iff.1 h
    split at h
    · rename_i hres
      cases force with
      | false => exact Or.inr ⟨rfl, d, List.mem_cons_self, r, hr, hres⟩
      | true =>
        rw [Bool.not_true, Bool.or_false] at h
        exact (ih h).imp_right (And.imp_right hlater)
    · exact (ih h).imp_right (And.imp_right hlater)
    · cases h

theorem utf8Reply_force_key {b0 : Byte} {rest : List Byte} (h : utf8Reply s csi b0 rest true = some r) :
    r.res = .key := by
  unfold utf8Reply at h
  split at h
  · obtain ⟨emit, -, rfl⟩ := Option.map_eq_some_iff.1 h
    rfl
  · rw [if_pos rfl] at h
    obtain ⟨emit, -, rfl⟩ := Option.map_eq_some_iff.1 h
    rfl

theorem simpleReply_force_key (hw : w ≠ []) (h : simpleReply s csi w true = some r) : r.res = .key := by
  unfold simpleReply at h
  split at h
  · exact absurd rfl hw
  · split_ifs at h with hesc hraw hutf8
    · exact absurd rfl hesc.2
    · obtain ⟨emit, -, rfl⟩ := Option.map_eq_some_iff.1 h
      rfl
    · exact utf8Reply_force_key h
    · cases h
      rfl

end Results

namespace Settings
variable {s : Settings} {csi : TermKeyCsi} {w : List Byte} {r : Reply}

theorem simple_force_key (hw : w ≠ [])
    (hnested : ∀ w' r', w'.length < w.length → w' ≠ [] → s.reply csi true w' = some r' → r'.res = .key)
    (h : s.simple csi true (s.reply csi true) w = some r) : r.res = .key := by
  unfold simple at h
  split at h
  · obtain ⟨r', hr', rfl⟩ := Option.map_eq_some_iff.1 h
    have hkey := hnested _ r' (Nat.lt_succ_self _) (List.cons_ne_nil _ _) hr'
    rw [Reply.escaped, if_pos hkey]
    exact hkey
  · exact simpleReply_force_key hw h

theorem reply_force_key (hw : w ≠ []) (h : s.reply csi true w = some r) : r.res = .key := by
  induction hn : w.length using Nat.strongRecOn generalizing w r with
  | ind n ih =>
    rw [reply_eq] at h
    obtain ⟨tried, htried, h⟩ := Option.bind_eq_some_iff.1 h
    split at h
    · cases h
      exact tryDrivers_settled hw htried
    · rcases tryDrivers_again htried with hagain | ⟨hforce, -⟩
      · cases hagain
      · cases hforce
    · obtain ⟨r', hr', heq⟩ := Option.map_eq_some_iff.1 h
      have hkey := simple_force_key hw (fun w' r' hlt hw' hr' => ih w'.length (hn ▸ hlt) hw' hr' rfl) hr'
      cases heq
      exact hkey

theorem simpleReply_key_or_again (hw : w ≠ []) {force : Bool} (h : simpleReply s.toInterpretation csi w force = some r) :
    r.res = .key ∨ r.res = .again := by
  unfold simpleReply at h
  split at h
  · exact absurd rfl hw
  · split_ifs at h
    · cases h
      exact Or.inr rfl
    · obtain ⟨emit, -, rfl⟩ := Option.map_eq_some_iff.1 h
      exact Or.inl rfl
    · unfold utf8Reply at h
      split at h
      · obtain ⟨emit, -, rfl⟩ := Option.map_eq_some_iff.1 h
        exact Or.inl rfl
      · split_ifs at h
        · obtain ⟨emit, -, rfl⟩ := Option.map_eq_some_iff.1 h
          exact Or.inl rfl
        · obtain ⟨emit, -, rfl⟩ := Option.map_eq_some_iff.1 h
          exact Or.inr rfl
    · cases h
      exact Or.inl rfl

theorem reply_key_or_again (hw : w ≠ []) {force : Bool} (h : s.reply csi force w = some r) :
    r.res = .key ∨ r.res = .again := by
  induction hn : w.length using Nat.strongRecOn generalizing w r with
  | ind n ih =>
    rw [reply_eq] at h
    obtain ⟨tried, htried, h⟩ := Option.bind_eq_some_iff.1 h
    split at h
    · cases h
      exact Or.inl (tryDrivers_settled hw htried)
    · cases h
      exact Or.inr rfl
    · obtain ⟨r', hr', heq⟩ := Option.map_eq_some_iff.1 h
      cases heq
      change r'.res = .key ∨ r'.res = .again
      unfold simple at hr'
      split at hr'
      · obtain ⟨nested, hnested, rfl⟩ := Option.map_eq_some_iff.1 hr'
        have hres := ih _ (by rw [← hn]; exact Nat.lt_succ_self _) (List.cons_ne_nil _ _) hnested rfl
        unfold Reply.escaped
        split_ifs
        · exact hres
        · exact hres
      · exact simpleReply_key_or_again hw hr'

end Settings

section Harmless
variable {s : Interpretation} {csi : TermKeyCsi} {w : List Byte}

theorem harmless_found (store : TermKeyKey → TermKeyKey) (nbytes : ℕ) :
    Harmless csi (some (.found store nbytes csi)) := ⟨_, rfl, rfl, rfl⟩

theorem harmless_undecided (res : TermKeyResult) (store : TermKeyKey → TermKeyKey) :
    Harmless csi (some (.undecided res store csi)) := ⟨_, rfl, rfl, rfl⟩

theorem Harmless.store {out : Option Reply} (h : Harmless csi out) (store : TermKeyKey → TermKeyKey) :
    Harmless csi (out.map fun r => { r with store := r.store ∘ store }) := by
  obtain ⟨r, rfl, hhightide, hcsi⟩ := h
  exact ⟨_, rfl, hhightide, hcsi⟩

theorem Harmless.escaped {out : Option Reply} (h : Harmless csi out) : Harmless csi (out.map Reply.escaped) := by
  obtain ⟨r, rfl, hhightide, hcsi⟩ := h
  refine ⟨r.escaped, rfl, ?_⟩
  unfold Reply.escaped
  split_ifs
  · exact ⟨hhightide, hcsi⟩
  · exact ⟨hhightide, hcsi⟩

theorem harmless_emit {codepoint : ℤ} (h : 0 ≤ codepoint) (f : (TermKeyKey → TermKeyKey) → TermKeyKey → TermKeyKey)
    (nbytes : ℕ) : Harmless csi ((emitCodepoint s codepoint).map fun emit => .found (f emit) nbytes csi) := by
  obtain ⟨emit, hemit⟩ := emitCodepoint_isSome s h
  rw [hemit]
  exact harmless_found _ _

theorem harmless_of_defers {out : Option Reply} (hfits : ∀ r, out = some r → r.Fits csi w) (h : Defers out) :
    Harmless csi out := by
  obtain ⟨r, hr, hres⟩ := h
  have hkey : r.res ≠ .key := by
    rcases hres with hres | hres
    · rw [hres]
      exact TermKeyResult.noConfusion
    · rw [hres]
      exact TermKeyResult.noConfusion
  exact ⟨r, hr, (hfits r hr).hightide hkey, (hfits r hr).csi hkey⟩

theorem peekkeyMouse_harmless {skipped : ℕ} : Harmless csi (some (peekkeyMouse csi w skipped)) := by
  unfold peekkeyMouse
  split
  · exact harmless_found _ _
  · exact harmless_undecided _ _

theorem peekkeyCsi_force {introlen : ℕ} (hpos : 0 < introlen) (hle : introlen ≤ w.length)
    (h : Defers (peekkeyCsi s csi w introlen false)) : Harmless csi (peekkeyCsi s csi w introlen true) := by
  cases hsplit : splitFinal (w.drop introlen) with
  | none =>
    simp only [peekkeyCsi, hsplit, if_true]
    exact harmless_emit (by decide) _ _
  | some found =>
    have hsame : peekkeyCsi s csi w introlen true = peekkeyCsi s csi w introlen false := by
      simp only [peekkeyCsi, hsplit]
    rw [hsame]
    exact harmless_of_defers (fun r => peekkeyCsi_fits hpos hle) h

theorem peekkeySs3_force {introlen : ℕ} (hpos : 0 < introlen) (hle : introlen ≤ w.length)
    (h : Defers (peekkeySs3 s csi w introlen false)) : Harmless csi (peekkeySs3 s csi w introlen true) := by
  cases hcmd : w[introlen]? with
  | none =>
    simp only [peekkeySs3, hcmd, if_true]
    exact harmless_emit (by decide) _ _
  | some cmd =>
    have hsame : peekkeySs3 s csi w introlen true = peekkeySs3 s csi w introlen false := by
      simp only [peekkeySs3, hcmd]
    rw [hsame]
    exact harmless_of_defers (fun r => peekkeySs3_fits hpos hle) h

theorem csiPeekkey_force (h : Defers (csiPeekkey s csi w false)) : Harmless csi (csiPeekkey s csi w true) := by
  cases w with
  | nil =>
    exact harmless_undecided _ _
  | cons b0 rest =>
    by_cases hb0 : b0 = 0x1b
    · subst hb0
      cases rest with
      | nil => exact harmless_undecided _ _
      | cons b1 rest =>
        simp only [csiPeekkey, if_true] at h ⊢
        split_ifs at h ⊢
        · exact peekkeySs3_force (by omega) (by simp) h
        · exact harmless_of_defers (fun r => peekkeyCtrlstring_fits (by omega)) h
        · exact peekkeyCsi_force (by omega) (by simp) h
        · exact harmless_undecided _ _
    · simp only [csiPeekkey, if_neg hb0] at h ⊢
      split_ifs at h ⊢
      · exact peekkeySs3_force (by omega) (by simp) h
      · exact harmless_of_defers (fun r => peekkeyCtrlstring_fits (by omega)) h
      · exact peekkeyCsi_force (by omega) (by simp) h
      · exact harmless_undecided _ _

theorem tiWalk_harmless {p : TrieNode} {min max : Byte} {kids : ℕ → TrieNode} (hp : p = .arr min max kids)
    (force : Bool) (pos : ℕ) : Harmless csi (tiWalk csi force p pos w) := by
  induction w generalizing p pos min max kids with
  | nil => exact harmless_undecided _ _
  | cons b w ih =>
    subst hp
    rw [tiWalk, lookupNext, Option.bind_eq_bind, Option.bind_some]
    cases hnext : (Trie.arr min max kids).child b with
    | null => exact harmless_undecided _ _
    | leaf leaf =>
      cases leaf with
      | key info => exact harmless_found _ _
      | mouse => exact peekkeyMouse_harmless
    | arr min' max' kids' => exact ih rfl _

theorem tiPeekkey_harmless {root : TrieNode} {b : Byte} {rest : List Byte} {r : Reply} {force : Bool}
    (hr : tiPeekkey s csi root (b :: rest) force = some r) (w : List Byte) (force' : Bool) :
    Harmless csi (tiPeekkey s csi root w force') := by
  cases w with
  | nil => exact harmless_undecided _ _
  | cons c w =>
    cases root with
    | null => cases hr
    | leaf leaf => cases hr
    | arr min max kids => exact tiWalk_harmless rfl _ _

theorem driver_force {d : Driver} (hw : w ≠ []) (h : Defers (d.peekkey s csi w false)) :
    Harmless csi (d.peekkey s csi w true) := by
  cases d with
  | ti root =>
    cases w with
    | nil => exact absurd rfl hw
    | cons b w =>
      obtain ⟨r, hr, -⟩ := h
      change Harmless csi (tiPeekkey s csi root (b :: w) true)
      exact tiPeekkey_harmless hr _ _
  | csi => exact csiPeekkey_force h

theorem tryDrivers_harmless {ds : List Driver} (store : TermKeyKey → TermKeyKey)
    (h : ∀ d ∈ ds, Harmless csi (d.peekkey s csi w true)) :
    (∃ r, tryDrivers s csi w true ds false store = some (.settled r) ∧ r.hightide = none ∧ r.csi = csi) ∨
      ∃ store', tryDrivers s csi w true ds false store = some (.unsettled false store') := by
  induction ds generalizing store with
  | nil => exact Or.inr ⟨store, rfl⟩
  | cons d ds ih =>
    obtain ⟨⟨r, hr, hhightide, hcsi⟩, hds⟩ := List.forall_mem_cons.1 h
    rw [tryDrivers, hr, Option.bind_eq_bind, Option.bind_some]
    split
    · exact ih _ hds
    · exact ih _ hds
    · exact Or.inl ⟨_, rfl, hhightide, hcsi⟩

theorem parseContinuation_key_nonneg {nbytes left n : ℕ} {cp cp' : ℤ} {rest : List Byte} (hcp : 0 ≤ cp)
    (h : parseContinuation nbytes left cp rest = .key cp' n) : 0 ≤ cp' := by
  induction left generalizing cp rest with
  | zero =>
    cases h
    unfold checkedCodepoint utf8Invalid
    dsimp only
    split_ifs
    all_goals omega
  | succ left ih =>
    cases rest with
    | nil => cases h
    | cons cb rest =>
      rw [parseContinuation] at h
      split_ifs at h
      · cases h
        decide
      · exact ih (by omega) h

theorem parseUtf8_key_nonneg {b0 : Byte} {rest : List Byte} {cp : ℤ} {n : ℕ} (h : parseUtf8 b0 rest = .key cp n) :
    0 ≤ cp := by
  unfold parseUtf8 at h
  split_ifs at h
  all_goals first
    | exact parseContinuation_key_nonneg (by omega) h
    | (cases h; omega)
    | (cases h; decide)

theorem simpleReply_force : Harmless csi (simpleReply s csi w true) := by
  cases w with
  | nil => exact harmless_undecided _ _
  | cons b0 rest =>
    rw [simpleReply, if_neg (by simp)]
    split_ifs
    · exact harmless_emit (by omega) _ _
    · unfold utf8Reply
      cases hparse : parseUtf8 b0 rest with
      | key cp nbytes => exact harmless_emit (parseUtf8_key_nonneg hparse) _ _
      | again cp =>
        simp only [if_true]
        exact harmless_emit (show 0 ≤ utf8Invalid by decide) _ _
    · exact harmless_found _ _

end Harmless

namespace Settings
variable {s : Settings} {csi : TermKeyCsi} {w : List Byte} {r : Reply}

theorem reply_force_of_drivers (hw : ∀ d ∈ s.drivers, Harmless csi (d.peekkey s.toInterpretation csi w true))
    (hnested : ∀ b rest, w = 0x1b :: b :: rest → Harmless csi (s.reply csi true (b :: rest))) :
    Harmless csi (s.reply csi true w) := by
  rw [reply_eq]
  rcases tryDrivers_harmless id hw with ⟨r, hr, hharmless⟩ | ⟨store, hstore⟩
  · rw [hr]
    exact ⟨r, rfl, hharmless⟩
  · rw [hstore]
    refine Harmless.store ?_ store
    unfold simple
    split
    · exact (hnested _ _ rfl).escaped
    · exact simpleReply_force

theorem reply_behind_escape (hs : s.Patient) {b : Byte} {rest : List Byte}
    (hds : ∀ d ∈ s.drivers, Defers (d.peekkey s.toInterpretation csi (0x1b :: b :: rest) false))
    (hwaits : ∃ d ∈ s.drivers, Waits (d.peekkey s.toInterpretation csi (0x1b :: b :: rest) false)) :
    Harmless csi (s.reply csi true (b :: rest)) := by
  have hb : ¬ Introducer b := by
    obtain ⟨d, hmem, hd⟩ := hwaits
    cases d with
    | ti root => exact hs.plain csi root b rest hmem hd
    | csi =>
      rintro (rfl | rfl | rfl | rfl | rfl)
      all_goals
        obtain ⟨r, hr, hres⟩ := hd
        cases hr
        cases hres
  refine reply_force_of_drivers (fun d hmem => ?_) fun b' rest' heq => ?_
  · cases d with
    | ti root =>
      obtain ⟨r, hr, -⟩ := hds _ hmem
      change Harmless csi (tiPeekkey s.toInterpretation csi root (b :: rest) true)
      exact tiPeekkey_harmless hr _ _
    | csi =>
      simp only [Introducer, not_or] at hb
      obtain ⟨hesc, hss3, hdcs, hcsi, hosc⟩ := hb
      have hnone : csiPeekkey s.toInterpretation csi (b :: rest) true = some (.undecided .none id csi) := by
        simp [csiPeekkey, hesc, hss3, hdcs, hcsi, hosc]
      change Harmless csi (csiPeekkey s.toInterpretation csi (b :: rest) true)
      rw [hnone]
      exact harmless_undecided _ _
  · exact absurd (Or.inl (List.head_eq_of_cons_eq heq)) hb

/-- Where more bytes are waited for, a look in force mode leaves the TermKey as it was. -/
theorem reply_force_harmless (hs : s.Patient) (h : s.reply csi false w = some r) (hres : r.res = .again) :
    Harmless csi (s.reply csi true w) := by
  induction hn : w.length using Nat.strongRecOn generalizing w r with
  | ind n ih =>
    have hw : w ≠ [] := by
      rintro rfl
      obtain ⟨r', hr', hempty⟩ := s.reply_nil csi false
      cases hr'.symm.trans h
      rw [hres] at hempty
      exact hempty.elim TermKeyResult.noConfusion TermKeyResult.noConfusion
    rw [reply_eq] at h
    obtain ⟨tried, htried, h⟩ := Option.bind_eq_some_iff.1 h
    split at h
    · cases h
      rw [tryDrivers_settled hw htried] at hres
      cases hres
    · rcases tryDrivers_again htried with hagain | ⟨-, hwaits⟩
      · cases hagain
      · have hds := tryDrivers_unsettled htried
        refine reply_force_of_drivers (fun d hmem => driver_force hw (hds d hmem)) fun b rest heq => ?_
        subst heq
        exact reply_behind_escape hs hds hwaits
    · have hds := tryDrivers_unsettled htried
      refine reply_force_of_drivers (fun d hmem => driver_force hw (hds d hmem)) fun b rest heq => ?_
      subst heq
      obtain ⟨r', hr', heq⟩ := Option.map_eq_some_iff.1 h
      obtain ⟨r'', hnested, rfl⟩ := Option.map_eq_some_iff.1 hr'
      refine ih (b :: rest).length (by rw [← hn]; simp) hnested ?_ rfl
      cases heq
      unfold Reply.escaped at hres
      split_ifs at hres with hkey
      · exact absurd (hkey.symm.trans hres) TermKeyResult.noConfusion
      · exact hres

end Settings

end MutantC.Libtermkey
