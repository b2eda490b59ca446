import MutantC.Libtermkey.TermkeyForce

/-! The buffer of a TermKey: the bytes that were pushed and not taken yet lie in it in their order, and
`peekkey` makes of them what the drivers make of the bytes alone. -/

namespace MutantC.Libtermkey
open CBuffer Iteration StreamDecoder Tries

namespace TermKey

/-- The TermKey is started, its buffer falls in halves, and its bytes lie inside of it. -/
structure WellFormed (tk : TermKey) : Prop where
  started : tk.isStarted
  length : tk.buffer.length = 2 * (tk.buffsize / 2)
  size : tk.buffsize = 2 * (tk.buffsize / 2)
  start : 0 ≤ tk.buffstart
  inside : tk.buffstart + tk.buffcount ≤ tk.buffer.length
  hightide : tk.hightide ≤ tk.buffcount

def bytes (tk : TermKey) : List Byte := (tk.buffer.drop tk.buffstart.toNat).take tk.buffcount

/-- The bytes that no key was made of. -/
def pending (tk : TermKey) : List Byte := tk.bytes.drop tk.hightide

def slid (tk : TermKey) : TermKey :=
  { tk with
    buffer := tk.buffer.drop (tk.buffsize / 2) ++ tk.buffer.drop (tk.buffsize / 2)
    buffstart := tk.buffstart - (tk.buffsize / 2 : ℕ) }

variable {tk : TermKey}

theorem window_eq (h : tk.WellFormed) : tk.window = some tk.bytes := if_pos ⟨h.start, h.inside⟩

theorem length_bytes (h : tk.WellFormed) : tk.bytes.length = tk.buffcount := by
  have hstart := h.start
  have hinside := h.inside
  rw [bytes, List.length_take, List.length_drop]
  omega

theorem length_pending (h : tk.WellFormed) : tk.pending.length = tk.buffcount - tk.hightide := by
  rw [pending, List.length_drop, length_bytes h]

theorem slide_eq (tk : TermKey) (hlen : tk.buffer.length = 2 * (tk.buffsize / 2)) :
    tk.slide = some (if (tk.buffsize / 2 : ℕ) < tk.buffstart then tk.slid else tk) := by
  have hhalf : (tk.buffer.drop (tk.buffsize / 2)).length = tk.buffsize / 2 := by
    rw [List.length_drop]
    omega
  unfold slide
  dsimp only
  split_ifs
  · have htake : (tk.buffer.drop (tk.buffsize / 2)).take (tk.buffsize / 2) = tk.buffer.drop (tk.buffsize / 2) := by
      rw [List.take_of_length_le hhalf.le]
    rw [memcpy, if_pos hhalf.ge, htake, writeAt, if_pos (by rw [hhalf]; omega), Option.bind_eq_bind,
      Option.bind_some, List.take_zero, List.nil_append, hhalf, Nat.zero_add]
    rfl
  · rfl

theorem slid_drop {blk : List Byte} {half p n : ℕ} (hlen : blk.length = 2 * half) (hp : half ≤ p)
    (hn : p + n ≤ 2 * half) :
    ((blk.drop half ++ blk.drop half).drop (p - half)).take n = (blk.drop p).take n := by
  have hhalf : (blk.drop half).length = half := by
    rw [List.length_drop]
    omega
  have hdrop : (blk.drop half).drop (p - half) = blk.drop p := by
    rw [List.drop_drop, Nat.add_sub_cancel' hp]
  rw [List.drop_append_of_le_length (by omega), hdrop,
    List.take_append_of_le_length (by rw [List.length_drop]; omega)]

theorem passed_bytes (h : tk.WellFormed) (n : ℕ) : (tk.passed n).bytes = tk.bytes.drop n := by
  have hstart := h.start
  rw [bytes, bytes, List.drop_take, List.drop_drop]
  congr 2
  simp only [passed]
  omega

theorem passed_wellFormed (h : tk.WellFormed) {n : ℕ} (hn : tk.hightide + n ≤ tk.buffcount) :
    (tk.passed n).WellFormed where
  started := h.started
  length := h.length
  size := h.size
  start := by
    have hstart := h.start
    simp only [passed]
    omega
  inside := by
    have hinside := h.inside
    simp only [passed]
    omega
  hightide := by
    simp only [passed]
    omega

end TermKey

/-- What `peekkey` gives and leaves is what the drivers make of the bytes; a key may have slid the data
down, which then starts at most in the midst of the bytes of the key. -/
structure Peeked (tk : TermKey) (r : Reply) (p : Peek) : Prop where
  res : p.res = r.res
  store : p.store = r.store
  nbytes : p.nbytes = r.nbytes
  tk : p.tk = tk.stored r ∨
    r.res = .key ∧ (tk.buffsize / 2 : ℕ) < tk.buffstart + r.nbytes ∧ p.tk = (tk.stored r).slid

section Peeked
variable {tk : TermKey}

theorem stored_of_harmless {r : Reply} (hhightide : r.hightide = none) (hcsi : r.csi = tk.csi) :
    tk.stored r = tk := by
  rw [TermKey.stored, hhightide, hcsi]
  rfl

theorem steppedBack_passed (hcount : 1 ≤ tk.buffcount) (r : Reply) :
    ((tk.passed 1).stored r).steppedBack = tk.stored r := by
  have hback : tk.buffstart + (1 : ℕ) - 1 = tk.buffstart := by omega
  simp only [TermKey.steppedBack, TermKey.stored, TermKey.passed, hback, Nat.sub_add_cancel hcount]

theorem steppedBack_slid (tk : TermKey) : tk.slid.steppedBack = tk.steppedBack.slid := by
  have hcomm : tk.buffstart - (tk.buffsize / 2 : ℕ) - 1 = tk.buffstart - 1 - (tk.buffsize / 2 : ℕ) := by omega
  simp only [TermKey.steppedBack, TermKey.slid, hcomm]

theorem Peeked.escaped {r : Reply} {p : Peek} (hcount : 1 ≤ tk.buffcount) (h : Peeked (tk.passed 1) r p) :
    Peeked tk r.escaped p.escaped := by
  obtain ⟨res, tk', store, nbytes⟩ := p
  obtain ⟨rfl, rfl, rfl, htk⟩ := h
  unfold Reply.escaped Peek.escaped
  dsimp only at htk ⊢
  split_ifs with hkey
  · refine ⟨hkey.symm, rfl, rfl, ?_⟩
    rcases htk with rfl | ⟨-, hhalf, rfl⟩
    · exact Or.inl (steppedBack_passed hcount r)
    · refine Or.inr ⟨hkey, ?_, ?_⟩
      · simp only [TermKey.passed] at hhalf ⊢
        omega
      · dsimp only
        rw [steppedBack_slid, steppedBack_passed hcount]
        rfl
  · refine ⟨rfl, rfl, rfl, ?_⟩
    rcases htk with rfl | ⟨hkey', -, -⟩
    · exact Or.inl (steppedBack_passed hcount r)
    · exact absurd hkey' hkey

theorem simpleReply_plain {s : Interpretation} {csi : TermKeyCsi} {w : List Byte} {force : Bool} {r : Reply}
    (h : simpleReply s csi w force = some r) : r.hightide = none ∧ r.csi = csi := by
  unfold simpleReply at h
  split at h
  · cases h
    exact ⟨rfl, rfl⟩
  · split_ifs at h
    · cases h
      exact ⟨rfl, rfl⟩
    · obtain ⟨emit, -, rfl⟩ := Option.map_eq_some_iff.1 h
      exact ⟨rfl, rfl⟩
    · unfold utf8Reply at h
      split at h
      · obtain ⟨emit, -, rfl⟩ := Option.map_eq_some_iff.1 h
        exact ⟨rfl, rfl⟩
      · split_ifs at h
        all_goals
          obtain ⟨emit, -, rfl⟩ := Option.map_eq_some_iff.1 h
          exact ⟨rfl, rfl⟩
    · cases h
      exact ⟨rfl, rfl⟩

theorem peekkeySimple_peeked {nested : TermKey → Option Peek} {nested' : List Byte → Option Reply}
    (force : Bool) (h : tk.WellFormed)
    (hnested : ∀ b rest, tk.bytes = 0x1b :: b :: rest →
      Option.Rel (Peeked (tk.passed 1)) (nested' (b :: rest)) (nested (tk.passed 1))) :
    Option.Rel (Peeked tk) (tk.toSettings.simple tk.csi force nested' tk.bytes)
      (peekkeySimple nested tk tk.bytes force) := by
  by_cases hesc : ∃ b rest, tk.bytes = 0x1b :: b :: rest
  · obtain ⟨b, rest, heq⟩ := hesc
    have hcount : 1 ≤ tk.buffcount := by
      rw [← TermKey.length_bytes h, heq, List.length_cons]
      omega
    have hrel := hnested b rest heq
    rw [heq]
    exact rel_map (fun r p hpeeked => Peeked.escaped hcount hpeeked) hrel
  · have hlist : tk.toSettings.simple tk.csi force nested' tk.bytes =
        simpleReply tk.toInterpretation tk.csi tk.bytes force := by
      unfold Settings.simple
      split
      · rename_i b rest heq
        exact absurd ⟨b, rest, heq⟩ hesc
      · rfl
    have hbuffer : peekkeySimple nested tk tk.bytes force =
        (simpleReply tk.toInterpretation tk.csi tk.bytes force).map fun r => ⟨r.res, tk, r.store, r.nbytes⟩ := by
      unfold peekkeySimple
      split
      · rename_i b rest heq
        exact absurd ⟨b, rest, heq⟩ hesc
      · rfl
    rw [hlist, hbuffer]
    cases hr : simpleReply tk.toInterpretation tk.csi tk.bytes force with
    | none => exact Option.Rel.none
    | some r =>
      obtain ⟨hhightide, hcsi⟩ := simpleReply_plain hr
      exact Option.Rel.some ⟨rfl, rfl, rfl, Or.inl (stored_of_harmless hhightide hcsi).symm⟩

theorem peekkeyFuel_peeked (fuel : ℕ) (force : Bool) (h : tk.WellFormed) (hhightide : tk.hightide = 0) :
    Option.Rel (Peeked tk) (tk.toSettings.replyFuel tk.csi force fuel tk.bytes) (peekkeyFuel fuel tk force) := by
  induction fuel generalizing tk with
  | zero => exact Option.Rel.none
  | succ fuel ih =>
    have hskip : tk.skipHightide = some tk := by
      rw [TermKey.skipHightide, hhightide, if_pos (Nat.zero_le _), TermKey.passed, Nat.cast_zero, add_zero,
        Nat.sub_zero, ← hhightide]
    rw [peekkeyFuel, if_neg (not_not.2 h.started), hskip, Option.bind_eq_bind, Option.bind_some,
      TermKey.window_eq h, Option.bind_eq_bind, Option.bind_some, Settings.replyFuel]
    cases tryDrivers tk.toInterpretation tk.csi tk.bytes force tk.drivers false id with
    | none => exact Option.Rel.none
    | some tried =>
      rcases tried with r | ⟨again, store⟩
      · simp only [Option.bind_eq_bind, Option.bind_some]
        by_cases hkey : r.res = .key
        · rw [if_pos hkey, TermKey.slide_eq (tk.stored r) h.length, Option.map_some]
          split_ifs with hslide
          · exact Option.Rel.some ⟨rfl, rfl, rfl, Or.inr ⟨hkey, by
              change (tk.buffsize / 2 : ℕ) < tk.buffstart at hslide
              omega, rfl⟩⟩
          · exact Option.Rel.some ⟨rfl, rfl, rfl, Or.inl rfl⟩
        · rw [if_neg hkey]
          exact Option.Rel.some ⟨rfl, rfl, rfl, Or.inl rfl⟩
      · cases again with
        | true => exact Option.Rel.some ⟨rfl, rfl, rfl, Or.inl rfl⟩
        | false =>
          refine rel_map ?_ (peekkeySimple_peeked force h fun b rest heq => ?_)
          · rintro r p ⟨hres, hstore, hnbytes, htk⟩
            exact ⟨hres, by rw [hstore], hnbytes, htk⟩
          · have hwf : (tk.passed 1).WellFormed := TermKey.passed_wellFormed h (by
              rw [hhightide, ← TermKey.length_bytes h, heq, List.length_cons]
              omega)
            have hbytes : (tk.passed 1).bytes = b :: rest := by
              rw [TermKey.passed_bytes h, heq, List.drop_one, List.tail_cons]
            have hrel := ih hwf hhightide
            rwa [hbytes] at hrel

end Peeked

namespace TermKey
variable {tk : TermKey}

def skipped (tk : TermKey) : TermKey := { tk.passed tk.hightide with hightide := 0 }

theorem skipped_wellFormed (h : tk.WellFormed) : tk.skipped.WellFormed where
  started := h.started
  length := h.length
  size := h.size
  start := by
    have hstart := h.start
    simp only [skipped, passed]
    omega
  inside := by
    have hinside := h.inside
    have hhightide := h.hightide
    simp only [skipped, passed]
    omega
  hightide := Nat.zero_le _

theorem skipped_bytes (h : tk.WellFormed) : tk.skipped.bytes = tk.pending := passed_bytes h tk.hightide

theorem pending_of_hightide (hhightide : tk.hightide = 0) : tk.pending = tk.bytes := by
  rw [pending, hhightide, List.drop_zero]

theorem skipped_pending (h : tk.WellFormed) : tk.skipped.pending = tk.pending := by
  have hhightide : tk.skipped.hightide = 0 := rfl
  rw [pending_of_hightide hhightide, skipped_bytes h]

theorem skipped_skipped (tk : TermKey) : tk.skipped.skipped = tk.skipped := by
  simp [skipped, passed]

theorem peekkey_skipped (h : tk.WellFormed) (fuel : ℕ) (force : Bool) :
    peekkeyFuel fuel tk force = peekkeyFuel fuel tk.skipped force := by
  cases fuel with
  | zero => rfl
  | succ fuel =>
    have hskip : tk.skipHightide = some tk.skipped := if_pos h.hightide
    have hagain : tk.skipped.skipHightide = some tk.skipped := by
      simp [skipHightide, skipped, passed]
    have hstarted : tk.skipped.isStarted := h.started
    rw [peekkeyFuel, peekkeyFuel, hskip, hagain, if_neg (not_not.2 h.started), if_neg (not_not.2 hstarted)]

end TermKey

theorem peekkey_peeked {tk : TermKey} (h : tk.WellFormed) (force : Bool) :
    Option.Rel (Peeked tk.skipped) (tk.toSettings.reply tk.csi force tk.pending) (peekkey tk force) := by
  have hrel := peekkeyFuel_peeked (tk.buffcount + 1) force (TermKey.skipped_wellFormed h) rfl
  have hfuel : tk.toSettings.replyFuel tk.csi force (tk.buffcount + 1) tk.pending =
      tk.toSettings.reply tk.csi force tk.pending :=
    Settings.replyFuel_of_le (Nat.lt_succ_self _) (by rw [TermKey.length_pending h]; omega)
  rw [peekkey, TermKey.peekkey_skipped h, ← hfuel, ← TermKey.skipped_bytes h]
  exact hrel

theorem peekkey_of_reply {tk : TermKey} (h : tk.WellFormed) (force : Bool) {r : Reply}
    (hr : tk.toSettings.reply tk.csi force tk.pending = some r) :
    ∃ p, peekkey tk force = some p ∧ Peeked tk.skipped r p ∧ r.Fits tk.skipped.csi tk.skipped.bytes := by
  have hrel := peekkey_peeked h force
  rw [hr] at hrel
  obtain ⟨p, hpeek, hp⟩ := rel_some hrel
  refine ⟨p, hpeek, hp, ?_⟩
  rw [TermKey.skipped_bytes h]
  exact Settings.reply_fits hr

theorem peekkey_of_none {tk : TermKey} (h : tk.WellFormed) {force : Bool}
    (hr : tk.toSettings.reply tk.csi force tk.pending = none) : peekkey tk force = none := by
  have hrel := peekkey_peeked h force
  rw [hr] at hrel
  exact rel_none hrel

namespace TermKey
variable {tk tk' : TermKey}

/-- `tk'` is whole and has the bytes of `tk` but for the first `n`. -/
structure Took (tk : TermKey) (n : ℕ) (tk' : TermKey) : Prop where
  wellFormed : tk'.WellFormed
  settings : tk'.toSettings = tk.toSettings
  buffsize : tk'.buffsize = tk.buffsize
  pending : tk'.pending = tk.pending.drop n

theorem slid_wellFormed (h : tk.WellFormed) (hstart : (tk.buffsize / 2 : ℕ) ≤ tk.buffstart) :
    tk.slid.WellFormed where
  started := h.started
  length := by
    have hlen := h.length
    simp only [slid, List.length_append, List.length_drop]
    omega
  size := h.size
  start := by
    simp only [slid]
    omega
  inside := by
    have hinside := h.inside
    have hlen := h.length
    simp only [slid, List.length_append, List.length_drop]
    omega
  hightide := h.hightide

theorem slid_bytes (h : tk.WellFormed) (hstart : (tk.buffsize / 2 : ℕ) ≤ tk.buffstart) :
    tk.slid.bytes = tk.bytes := by
  have hinside := h.inside
  have hlen := h.length
  have hpos : (tk.buffstart - (tk.buffsize / 2 : ℕ)).toNat = tk.buffstart.toNat - tk.buffsize / 2 := by omega
  simp only [bytes, slid, hpos]
  exact slid_drop hlen (by omega) (by omega)

/-- `q` holds what `tk` does from the byte `n` on, be it in another place. -/
structure HeldFrom (n : ℕ) (tk q : TermKey) : Prop where
  started : q.isStarted
  settings : q.toSettings = tk.toSettings
  buffsize : q.buffsize = tk.buffsize
  length : q.buffer.length = tk.buffer.length
  buffcount : q.buffcount = tk.buffcount
  start : 0 ≤ q.buffstart + n
  inside : q.buffstart + q.buffcount ≤ q.buffer.length
  bytes : (q.buffer.drop (q.buffstart + n).toNat).take (q.buffcount - n) = tk.bytes.drop n

theorem heldFrom_stored (h : tk.WellFormed) (n : ℕ) (r : Reply) : HeldFrom n tk (tk.stored r) where
  started := h.started
  settings := rfl
  buffsize := rfl
  length := rfl
  buffcount := rfl
  start := by
    have hstart := h.start
    simp only [stored]
    omega
  inside := h.inside
  bytes := passed_bytes h n

theorem heldFrom_slid (h : tk.WellFormed) {n : ℕ} (hhalf : (tk.buffsize / 2 : ℕ) < tk.buffstart + n)
    (hn : n ≤ tk.buffcount) (r : Reply) : HeldFrom n tk (tk.stored r).slid where
  started := h.started
  settings := rfl
  buffsize := rfl
  length := by
    have hlen := h.length
    simp only [stored, slid, List.length_append, List.length_drop]
    omega
  buffcount := rfl
  start := by
    simp only [stored, slid]
    omega
  inside := by
    have hlen := h.length
    have hinside := h.inside
    simp only [stored, slid, List.length_append, List.length_drop]
    omega
  bytes := by
    have hlen := h.length
    have hinside := h.inside
    have hdrop : (tk.buffstart - (tk.buffsize / 2 : ℕ) + n).toNat =
        (tk.buffstart + n).toNat - tk.buffsize / 2 := by omega
    rw [← passed_bytes h n]
    simp only [stored, slid, hdrop]
    exact slid_drop hlen (by omega) (by omega)

theorem HeldFrom.eatBytes {q : TermKey} {n : ℕ} (hq : HeldFrom n tk q) (h : tk.WellFormed) (hn : n ≤ tk.buffcount)
    (hhightide : q.hightide ≤ tk.buffcount - n) :
    (q.eatBytes n).WellFormed ∧ (q.eatBytes n).bytes = tk.bytes.drop n ∧
      (q.eatBytes n).hightide = q.hightide := by
  have hlen : q.buffer.length = 2 * (q.buffsize / 2) := by rw [hq.length, hq.buffsize, h.length]
  have hsize : q.buffsize = 2 * (q.buffsize / 2) := by rw [hq.buffsize, ← h.size]
  have hcount := hq.buffcount
  have hstart := hq.start
  have hinside := hq.inside
  unfold TermKey.eatBytes
  split_ifs with hall
  · refine ⟨⟨hq.started, hlen, hsize, le_rfl, by simp, by simp only; omega⟩, ?_, rfl⟩
    rw [← hq.bytes, TermKey.bytes, Nat.sub_eq_zero_of_le hall, List.take_zero, List.take_zero]
  · exact ⟨⟨hq.started, hlen, hsize, hstart, by simp only [passed]; omega, by simp only [passed]; omega⟩,
      hq.bytes, rfl⟩

theorem eatBytes_csi (n : ℕ) : (tk.eatBytes n).csi = tk.csi := by
  unfold eatBytes
  split_ifs <;> rfl

theorem eatBytes_settings (n : ℕ) : (tk.eatBytes n).toSettings = tk.toSettings := by
  unfold eatBytes
  split_ifs <;> rfl

theorem eatBytes_buffsize (n : ℕ) : (tk.eatBytes n).buffsize = tk.buffsize := by
  unfold eatBytes
  split_ifs <;> rfl

/-- The bytes of a key are eaten, also where the data has been slid down under them, and those of a sequence
that is reported without them are left. -/
theorem eatBytes_peeked {r : Reply} {p : Peek} (h : tk.WellFormed) (hhightide : tk.hightide = 0)
    (hp : Peeked tk r p) (hkey : r.res = .key) (hfits : r.Fits tk.csi tk.bytes) :
    HeldFrom r.nbytes tk p.tk ∧ (p.tk.eatBytes p.nbytes).csi = r.csi ∧ (p.tk.eatBytes p.nbytes).WellFormed ∧
      (p.tk.eatBytes p.nbytes).bytes = tk.bytes.drop r.nbytes ∧
      (p.tk.eatBytes p.nbytes).hightide = r.hightide.getD 0 := by
  have hle := hfits.le hkey
  rw [length_bytes h] at hle
  have hheld : HeldFrom r.nbytes tk p.tk ∧ p.tk.hightide = r.hightide.getD 0 ∧ p.tk.csi = r.csi := by
    rcases hp.tk with htk | ⟨-, hhalf, htk⟩
    · rw [htk, ← hhightide]
      exact ⟨heldFrom_stored h _ r, rfl, rfl⟩
    · rw [htk, ← hhightide]
      exact ⟨heldFrom_slid h hhalf (by omega) r, rfl, rfl⟩
  obtain ⟨hheld, hleft, hcsi⟩ := hheld
  have heaten := hheld.eatBytes h (by omega) (by omega)
  rw [hleft] at heaten
  rw [hp.nbytes]
  exact ⟨hheld, by rw [eatBytes_csi, hcsi], heaten⟩

theorem eatBytes_took {r : Reply} {p : Peek} (h : tk.WellFormed) (hhightide : tk.hightide = 0)
    (hp : Peeked tk r p) (hkey : r.res = .key) (hfits : r.Fits tk.csi tk.bytes) :
    Took tk (r.nbytes + r.hightide.getD 0) (p.tk.eatBytes p.nbytes) ∧ (p.tk.eatBytes p.nbytes).csi = r.csi := by
  obtain ⟨hheld, hcsi, hwf, hbytes, hleft⟩ := eatBytes_peeked h hhightide hp hkey hfits
  refine ⟨⟨hwf, by rw [eatBytes_settings, hheld.settings], by rw [eatBytes_buffsize, hheld.buffsize], ?_⟩, hcsi⟩
  rw [pending, hbytes, hleft, pending_of_hightide hhightide, List.drop_drop]

end TermKey

end MutantC.Libtermkey
