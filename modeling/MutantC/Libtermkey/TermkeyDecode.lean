import MutantC.Lib.StreamDecoder
import MutantC.Libtermkey.TermkeyDefs

/-! What `peekkey` makes of the bytes waiting in a TermKey, told of the bytes alone. -/

namespace MutantC.Libtermkey
open CBuffer StreamDecoder Tries

/-- The reply for an escape and what stands behind it, from the reply for the latter. -/
def Reply.escaped (r : Reply) : Reply :=
  if r.res = .key then { r with store := addModifiers keymodAlt ∘ r.store, nbytes := r.nbytes + 1 } else r

namespace Settings
variable (s : Settings) (csi : TermKeyCsi) (force : Bool)

def simple (nested : List Byte → Option Reply) (w : List Byte) : Option Reply :=
  match w with
  | 0x1b :: b :: rest => (nested (b :: rest)).map Reply.escaped
  | w => simpleReply s.toInterpretation csi w force

def replyFuel : ℕ → List Byte → Option Reply
  | 0, _ => none
  | fuel + 1, w => do
    match ← tryDrivers s.toInterpretation csi w force s.drivers false id with
    | .settled r => some r
    | .unsettled true store => some (.undecided .again store csi)
    | .unsettled false store =>
      (s.simple csi force (replyFuel fuel) w).map fun r => { r with store := r.store ∘ store }

def reply (w : List Byte) : Option Reply := s.replyFuel csi force (w.length + 1) w

/-- The TermKey as a decoder of the bytes that wait in it: an item is what a key stores. -/
def front (w : List Byte) : Front TermKeyCsi (TermKeyKey → TermKeyKey) :=
  match s.reply csi false w with
  | none => .fail
  | some r => if r.res = .key then .item r.store (r.nbytes + r.hightide.getD 0) r.csi else .wait

end Settings

/-- A key takes bytes that are there; anything else stores nothing in the TermKey. -/
structure Reply.Fits (csi : TermKeyCsi) (w : List Byte) (r : Reply) : Prop where
  pos : r.res = .key → 0 < r.nbytes
  le : r.res = .key → r.nbytes + r.hightide.getD 0 ≤ w.length
  hightide : r.res ≠ .key → r.hightide = none
  csi : r.res ≠ .key → r.csi = csi

section Fits
variable {s : Interpretation} {csi : TermKeyCsi} {w : List Byte} {force : Bool} {r : Reply}

theorem fits_undecided {res : TermKeyResult} (hres : res ≠ .key) (store : TermKeyKey → TermKeyKey) :
    (Reply.undecided res store csi).Fits csi w :=
  ⟨fun h => absurd h hres, fun h => absurd h hres, fun _ => rfl, fun _ => rfl⟩

theorem fits_empty : (Reply.empty s csi).Fits csi w := by
  unfold Reply.empty
  split_ifs
  · exact fits_undecided TermKeyResult.noConfusion _
  · exact fits_undecided TermKeyResult.noConfusion _

theorem fits_found {csi' : TermKeyCsi} {nbytes : ℕ} (hpos : 0 < nbytes) (hle : nbytes ≤ w.length)
    (store : TermKeyKey → TermKeyKey) : (Reply.found store nbytes csi').Fits csi w :=
  ⟨fun _ => hpos, fun _ => hle, fun h => absurd rfl h, fun h => absurd rfl h⟩

theorem Reply.Fits.store (h : r.Fits csi w) (store : TermKeyKey → TermKeyKey) :
    ({ r with store } : Reply).Fits csi w := ⟨h.pos, h.le, h.hightide, h.csi⟩

theorem fits_mouse {w : List Byte} {skipped : ℕ} {all : List Byte} (hall : skipped + w.length ≤ all.length) :
    (peekkeyMouse csi w skipped).Fits csi all := by
  unfold peekkeyMouse
  split
  · refine fits_found (by omega) ?_ _
    simp only [List.length_cons] at hall
    omega
  · exact fits_undecided TermKeyResult.noConfusion _

theorem length_splitFinal {w body : List Byte} {final : Byte} (h : splitFinal w = some (body, final)) :
    body.length + 1 ≤ w.length := by
  induction w generalizing body with
  | nil => cases h
  | cons b w ih =>
    rw [splitFinal] at h
    split_ifs at h
    · cases h
      simp
    · obtain ⟨⟨body', final'⟩, hsplit, heq⟩ := Option.map_eq_some_iff.1 h
      cases heq
      simpa using ih hsplit

theorem length_splitString {w text : List Byte} {n : ℕ} (h : splitString w = some (text, n)) :
    text.length + n ≤ w.length ∧ 0 < n := by
  induction w generalizing text with
  | nil => cases h
  | cons b w ih =>
    rw [splitString] at h
    split_ifs at h with hst hesc
    · cases h
      simp
    · cases h
      obtain ⟨-, hhead⟩ := hesc
      cases w with
      | nil => cases hhead
      | cons c w => simp
    · obtain ⟨⟨text', n'⟩, hsplit, heq⟩ := Option.map_eq_some_iff.1 h
      cases heq
      obtain ⟨hle, hpos⟩ := ih hsplit
      exact ⟨by simp only [List.length_cons]; omega, hpos⟩

theorem peekkeyCsi_fits {introlen : ℕ} (hpos : 0 < introlen) (hle : introlen ≤ w.length)
    (h : peekkeyCsi s csi w introlen force = some r) : r.Fits csi w := by
  unfold peekkeyCsi at h
  split at h
  · split_ifs at h
    · obtain ⟨emit, -, rfl⟩ := Option.map_eq_some_iff.1 h
      exact fits_found hpos hle _
    · cases h
      exact fits_undecided TermKeyResult.noConfusion _
  · rename_i body final hsplit
    have hlen := length_splitFinal hsplit
    rw [List.length_drop] at hlen
    obtain ⟨⟨cmd, args⟩, -, h⟩ := Option.bind_eq_some_iff.1 h
    dsimp only at h
    split_ifs at h
    · cases h
      apply fits_mouse
      rw [List.length_drop]
      omega
    · obtain ⟨handled, -, h⟩ := Option.bind_eq_some_iff.1 h
      cases h
      unfold csiReply
      split_ifs with hnone
      · exact ⟨fun _ => hpos, fun _ => by simp only [Option.getD_some]; omega, fun h => absurd rfl h,
          fun h => absurd rfl h⟩
      · exact ⟨fun _ => by simp only; omega, fun _ => by simp only [Option.getD_none]; omega, fun _ => rfl,
          fun _ => rfl⟩

theorem peekkeySs3_fits {introlen : ℕ} (hpos : 0 < introlen) (hle : introlen ≤ w.length)
    (h : peekkeySs3 s csi w introlen force = some r) : r.Fits csi w := by
  unfold peekkeySs3 at h
  split at h
  · split_ifs at h
    · obtain ⟨emit, -, rfl⟩ := Option.map_eq_some_iff.1 h
      exact fits_found (by omega) le_rfl _
    · cases h
      exact fits_undecided TermKeyResult.noConfusion _
  · rename_i cmd hcmd
    have hlt : introlen + 1 ≤ w.length := (List.getElem?_eq_some_iff.1 hcmd).1
    split_ifs at h
    all_goals cases h
    · exact fits_undecided TermKeyResult.noConfusion _
    · exact fits_found (by omega) hlt _
    · exact fits_found (by omega) hlt _
    · exact fits_found (by omega) hlt _
    · exact fits_undecided TermKeyResult.noConfusion _

theorem peekkeyCtrlstring_fits {introlen : ℕ} (hpos : 0 < introlen)
    (h : peekkeyCtrlstring csi w introlen = some r) : r.Fits csi w := by
  unfold peekkeyCtrlstring at h
  split at h
  · cases h
    exact fits_undecided TermKeyResult.noConfusion _
  · rename_i text n hsplit
    obtain ⟨hlen, hn⟩ := length_splitString hsplit
    rw [List.length_drop] at hlen
    obtain ⟨intro, -, h⟩ := Option.bind_eq_some_iff.1 h
    cases h
    exact fits_found (by omega) (by omega) _

theorem csiPeekkey_fits (h : csiPeekkey s csi w force = some r) : r.Fits csi w := by
  unfold csiPeekkey at h
  split at h
  · cases h
    exact fits_empty
  · rename_i b0 rest
    split_ifs at h
    · split at h
      · cases h
        exact fits_undecided TermKeyResult.noConfusion _
      · split_ifs at h
        · exact peekkeySs3_fits (by omega) (by simp) h
        · exact peekkeyCtrlstring_fits (by omega) h
        · exact peekkeyCsi_fits (by omega) (by simp) h
        · cases h
          exact fits_undecided TermKeyResult.noConfusion _
    · exact peekkeySs3_fits (by omega) (by simp) h
    · exact peekkeyCtrlstring_fits (by omega) h
    · exact peekkeyCsi_fits (by omega) (by simp) h
    · cases h
      exact fits_undecided TermKeyResult.noConfusion _

theorem tiWalk_fits {p : TrieNode} {pos : ℕ} {all : List Byte} (hall : pos + w.length ≤ all.length)
    (h : tiWalk csi force p pos w = some r) : r.Fits csi all := by
  induction w generalizing p pos with
  | nil =>
    cases h
    split_ifs
    · exact fits_undecided TermKeyResult.noConfusion _
    · exact fits_undecided TermKeyResult.noConfusion _
  | cons b w ih =>
    rw [List.length_cons] at hall
    obtain ⟨next, -, h⟩ := Option.bind_eq_some_iff.1 h
    split at h
    · cases h
      exact fits_undecided TermKeyResult.noConfusion _
    · cases h
      exact fits_found (by omega) (by omega) _
    · cases h
      exact fits_mouse (by omega)
    · exact ih (by omega) h

theorem tiPeekkey_fits {root : TrieNode} (h : tiPeekkey s csi root w force = some r) : r.Fits csi w := by
  unfold tiPeekkey at h
  split at h
  · cases h
    exact fits_empty
  · exact tiWalk_fits (by omega) h

theorem driver_fits {d : Driver} (h : d.peekkey s csi w force = some r) : r.Fits csi w := by
  cases d with
  | ti root => exact tiPeekkey_fits h
  | csi => exact csiPeekkey_fits h

theorem tryDrivers_fits {ds : List Driver} {again : Bool} {store : TermKeyKey → TermKeyKey}
    (h : tryDrivers s csi w force ds again store = some (.settled r)) : r.Fits csi w := by
  induction ds generalizing again store with
  | nil => cases h
  | cons d ds ih =>
    obtain ⟨r', hr', h⟩ := Option.bind_eq_some_iff.1 h
    split at h
    · exact ih h
    · exact ih h
    · cases h
      exact (driver_fits hr').store _

theorem parseContinuation_key {nbytes left n : ℕ} {cp cp' : ℤ} {rest : List Byte} (hleft : left < nbytes)
    (h : parseContinuation nbytes left cp rest = .key cp' n) : 0 < n ∧ n ≤ nbytes - left + rest.length := by
  induction left generalizing cp rest with
  | zero =>
    cases h
    omega
  | succ left ih =>
    cases rest with
    | nil => cases h
    | cons cb rest =>
      rw [parseContinuation] at h
      split_ifs at h
      · cases h
        omega
      · have := ih (by omega) h
        simp only [List.length_cons]
        omega

theorem parseUtf8_key {b0 : Byte} {rest : List Byte} {cp : ℤ} {n : ℕ} (h : parseUtf8 b0 rest = .key cp n) :
    0 < n ∧ n ≤ rest.length + 1 := by
  unfold parseUtf8 at h
  split_ifs at h
  all_goals first
    | (cases h; omega)
    | (have hlen := parseContinuation_key (by omega) h; omega)

theorem utf8Reply_fits {b0 : Byte} {rest : List Byte} (h : utf8Reply s csi b0 rest force = some r) :
    r.Fits csi (b0 :: rest) := by
  unfold utf8Reply at h
  split at h
  · rename_i cp nbytes hparse
    obtain ⟨emit, -, rfl⟩ := Option.map_eq_some_iff.1 h
    obtain ⟨hpos, hle⟩ := parseUtf8_key hparse
    exact fits_found hpos (by simpa using hle) _
  · split_ifs at h
    · obtain ⟨emit, -, rfl⟩ := Option.map_eq_some_iff.1 h
      exact fits_found (by omega) (by simp) _
    · obtain ⟨emit, -, rfl⟩ := Option.map_eq_some_iff.1 h
      exact fits_undecided TermKeyResult.noConfusion _

theorem simpleReply_fits (h : simpleReply s csi w force = some r) : r.Fits csi w := by
  unfold simpleReply at h
  split at h
  · cases h
    exact fits_empty
  · split_ifs at h
    · cases h
      exact fits_undecided TermKeyResult.noConfusion _
    · obtain ⟨emit, -, rfl⟩ := Option.map_eq_some_iff.1 h
      exact fits_found (by omega) (by simp) _
    · exact utf8Reply_fits h
    · cases h
      exact fits_found (by omega) (by simp) _

theorem Reply.Fits.escaped {b : Byte} (h : r.Fits csi w) : r.escaped.Fits csi (b :: w) := by
  unfold Reply.escaped
  split_ifs with hkey
  · refine ⟨fun _ => Nat.succ_pos _, fun _ => ?_, fun hn => absurd hkey hn, fun hn => absurd hkey hn⟩
    have hle := h.le hkey
    simp only [List.length_cons]
    omega
  · exact ⟨fun hk => absurd hk hkey, fun hk => absurd hk hkey, h.hightide, h.csi⟩

end Fits

namespace Settings
variable {s : Settings} {csi : TermKeyCsi} {force : Bool} {w : List Byte} {r : Reply}

theorem replyFuel_fits {fuel : ℕ} (h : s.replyFuel csi force fuel w = some r) : r.Fits csi w := by
  induction fuel generalizing w r with
  | zero => cases h
  | succ fuel ih =>
    obtain ⟨tried, htried, h⟩ := Option.bind_eq_some_iff.1 h
    split at h
    · cases h
      exact tryDrivers_fits htried
    · cases h
      exact fits_undecided TermKeyResult.noConfusion _
    · obtain ⟨r', hr', h⟩ := Option.map_eq_some_iff.1 h
      cases h
      apply Reply.Fits.store
      unfold simple at hr'
      split at hr'
      · obtain ⟨r'', hnested, rfl⟩ := Option.map_eq_some_iff.1 hr'
        exact (ih hnested).escaped
      · exact simpleReply_fits hr'

theorem reply_fits (h : s.reply csi force w = some r) : r.Fits csi w := replyFuel_fits h

end Settings

end MutantC.Libtermkey
