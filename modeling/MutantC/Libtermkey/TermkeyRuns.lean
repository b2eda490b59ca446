import MutantC.Libtermkey.TermkeyBuffer
import MutantC.Libtermkey.TiSequences

/-! Runs of a TermKey: bytes are pushed and keys are taken in any order, and the keys are those of the whole
stream of bytes. -/

namespace MutantC.Libtermkey
open CBuffer Iteration StreamDecoder Tries

namespace TermKey

/-- A slide of less data than it takes for room has wrapped `buffstart` around. -/
structure Wrapped (tk : TermKey) : Prop where
  started : tk.isStarted
  start : tk.buffstart < 0
  hightide : tk.hightide = 0

structure Pushed (tk : TermKey) (bytes : List Byte) (tk' : TermKey) : Prop where
  wellFormed : tk'.WellFormed
  settings : tk'.toSettings = tk.toSettings
  csi : tk'.csi = tk.csi
  buffsize : tk'.buffsize = tk.buffsize
  pending : tk'.pending = tk.pending ++ bytes

/-- `tk'` is whole, and the bytes are put behind all that `tk` holds, which is moved to the start. -/
structure Appended (tk : TermKey) (bytes : List Byte) (tk' : TermKey) : Prop where
  wellFormed : tk'.WellFormed
  start : tk'.buffstart = 0
  settings : tk'.toSettings = tk.toSettings
  csi : tk'.csi = tk.csi
  buffsize : tk'.buffsize = tk.buffsize
  hightide : tk'.hightide = tk.hightide
  bytes : tk'.bytes = tk.bytes ++ bytes

variable {tk : TermKey}

theorem Appended.pushed {bytes : List Byte} {tk' : TermKey} (h : tk.WellFormed) (happended : tk.Appended bytes tk') :
    tk.Pushed bytes tk' where
  wellFormed := happended.wellFormed
  settings := happended.settings
  csi := happended.csi
  buffsize := happended.buffsize
  pending := by
    rw [pending, happended.bytes, happended.hightide,
      List.drop_append_of_le_length (by rw [length_bytes h]; exact h.hightide)]
    rfl

theorem Wrapped.peekkey (h : tk.Wrapped) (force : Bool) : peekkey tk force = none := by
  have hskip : tk.skipHightide = some { tk.passed 0 with hightide := 0 } := by
    rw [skipHightide, h.hightide, if_pos (Nat.zero_le _)]
  have hwindow : ({ tk.passed 0 with hightide := 0 } : TermKey).window = none := by
    refine if_neg fun hin => ?_
    have hstart := hin.1
    have hneg := h.start
    simp only [passed] at hstart
    omega
  rw [Libtermkey.peekkey, peekkeyFuel, if_neg (not_not.2 h.started), hskip, Option.bind_eq_bind,
    Option.bind_some, hwindow]
  rfl

theorem Wrapped.getkey (h : tk.Wrapped) : termkeyGetkey tk = none := by
  rw [termkeyGetkey, h.peekkey]
  rfl

theorem Wrapped.getkeyForce (h : tk.Wrapped) : termkeyGetkeyForce tk = none := by
  rw [termkeyGetkeyForce, h.peekkey]
  rfl

theorem Wrapped.pushBytes (h : tk.Wrapped) (bytes : List Byte) : termkeyPushBytes tk bytes = none := by
  rw [termkeyPushBytes, moveDown, if_pos h.start]
  rfl

theorem peeked_of_not_key {r : Reply} {p : Peek} (hp : Peeked tk r p)
    (hkey : r.res ≠ .key) (hfits : r.Fits tk.csi tk.bytes) : p.tk = tk := by
  rcases hp.tk with htk | ⟨hkey', -, -⟩
  · rw [htk, stored_of_harmless (hfits.hightide hkey) (hfits.csi hkey)]
  · exact absurd hkey' hkey

theorem skipped_took (h : tk.WellFormed) : Took tk 0 tk.skipped where
  wellFormed := skipped_wellFormed h
  settings := rfl
  buffsize := rfl
  pending := by
    rw [skipped_pending h, List.drop_zero]

/-- A look in force mode that nothing is eaten after slides the data down, if anything, and that wraps
`buffstart` around when it starts below the half. -/
theorem harmless_took {r : Reply} {p : Peek} (h : tk.WellFormed) (hhightide : tk.hightide = 0)
    (hp : Peeked tk r p) (hnone : r.hightide = none) (hcsi : r.csi = tk.csi) :
    p.tk.Wrapped ∨ Took tk 0 p.tk ∧ p.tk.csi = tk.csi := by
  have hstored := stored_of_harmless hnone hcsi
  rcases hp.tk with htk | ⟨-, -, htk⟩
  · rw [htk, hstored]
    exact Or.inr ⟨⟨h, rfl, rfl, rfl⟩, rfl⟩
  · rw [htk, hstored]
    by_cases hhalf : (tk.buffsize / 2 : ℕ) ≤ tk.buffstart
    · refine Or.inr ⟨⟨slid_wellFormed h hhalf, rfl, rfl, ?_⟩, rfl⟩
      rw [List.drop_zero, pending, pending, slid_bytes h hhalf]
      rfl
    · exact Or.inl ⟨h.started, by simp only [slid]; omega, hhightide⟩

end TermKey

section Steps
variable {tk : TermKey}

theorem Took.of_skipped {n : ℕ} {tk' : TermKey} (h : tk.WellFormed) (htook : tk.skipped.Took n tk') :
    tk.Took n tk' where
  wellFormed := htook.wellFormed
  settings := htook.settings
  buffsize := htook.buffsize
  pending := by
    rw [htook.pending, TermKey.skipped_pending h]

theorem getkey_of_key (h : tk.WellFormed) {r : Reply}
    (hr : tk.toSettings.reply tk.csi false tk.pending = some r) (hkey : r.res = .key) :
    ∃ tk', termkeyGetkey tk = some (.key, tk', r.store) ∧ tk.Took (r.nbytes + r.hightide.getD 0) tk' ∧
      tk'.csi = r.csi := by
  obtain ⟨p, hpeek, hp, hfits⟩ := peekkey_of_reply h _ hr
  obtain ⟨htook, hcsi⟩ := TermKey.eatBytes_took (TermKey.skipped_wellFormed h) rfl hp hkey hfits
  refine ⟨p.tk.eatBytes p.nbytes, ?_, Took.of_skipped h htook, hcsi⟩
  rw [termkeyGetkey, hpeek, Option.bind_eq_bind, Option.bind_some, hp.res, hkey, hp.store]

theorem getkey_left (h : tk.WellFormed) {r : Reply} (hr : tk.toSettings.reply tk.csi false tk.pending = some r)
    (hkey : r.res = .key) : ∃ tk', termkeyGetkey tk = some (.key, tk', r.store) ∧ tk'.WellFormed ∧
      tk'.bytes = tk.pending.drop r.nbytes ∧ tk'.hightide = r.hightide.getD 0 := by
  obtain ⟨p, hpeek, hp, hfits⟩ := peekkey_of_reply h _ hr
  obtain ⟨-, -, heaten⟩ := TermKey.eatBytes_peeked (TermKey.skipped_wellFormed h) rfl hp hkey hfits
  rw [TermKey.skipped_bytes h] at heaten
  refine ⟨p.tk.eatBytes p.nbytes, ?_, heaten⟩
  rw [termkeyGetkey, hpeek, Option.bind_eq_bind, Option.bind_some, hp.res, hkey, hp.store]

theorem getkeyForce_of_key (h : tk.WellFormed) {r : Reply}
    (hr : tk.toSettings.reply tk.csi true tk.pending = some r) (hkey : r.res = .key) :
    ∃ tk', termkeyGetkeyForce tk = some (.key, tk', r.store) ∧ tk.Took (r.nbytes + r.hightide.getD 0) tk' ∧
      tk'.csi = r.csi := by
  obtain ⟨p, hpeek, hp, hfits⟩ := peekkey_of_reply h _ hr
  obtain ⟨htook, hcsi⟩ := TermKey.eatBytes_took (TermKey.skipped_wellFormed h) rfl hp hkey hfits
  refine ⟨p.tk.eatBytes p.nbytes, ?_, Took.of_skipped h htook, hcsi⟩
  rw [termkeyGetkeyForce, hpeek, Option.bind_eq_bind, Option.bind_some, hp.res, hkey, hp.store]

theorem getkey_of_not_key (h : tk.WellFormed) (hs : tk.toSettings.Patient) {r : Reply}
    (hr : tk.toSettings.reply tk.csi false tk.pending = some r) (hkey : r.res ≠ .key) :
    ∃ tk' store, termkeyGetkey tk = some (r.res, tk', store) ∧
      (tk'.Wrapped ∨ tk.Took 0 tk' ∧ tk'.csi = tk.csi) := by
  obtain ⟨p, hpeek, hp, hfits⟩ := peekkey_of_reply h _ hr
  have htk := TermKey.peeked_of_not_key hp hkey hfits
  by_cases hagain : r.res = .again
  · have hwf := TermKey.skipped_wellFormed h
    obtain ⟨r', hr', hnone, hcsi⟩ := Settings.reply_force_harmless hs hr hagain
    rw [← TermKey.skipped_pending h] at hr'
    obtain ⟨q, hpeek', hq, -⟩ := peekkey_of_reply hwf true hr'
    rw [TermKey.skipped_skipped] at hq
    refine ⟨q.tk, q.store ∘ p.store, ?_, ?_⟩
    · rw [termkeyGetkey, hpeek, Option.bind_eq_bind, Option.bind_some, hp.res, hagain, htk]
      simp only [hpeek', Option.bind_some]
    · exact (TermKey.harmless_took hwf rfl hq hnone hcsi).imp_right fun hkept =>
        ⟨Took.of_skipped h hkept.1, hkept.2⟩
  · refine ⟨tk.skipped, p.store, ?_, Or.inr ⟨TermKey.skipped_took h, rfl⟩⟩
    rw [termkeyGetkey, hpeek, Option.bind_eq_bind, Option.bind_some, hp.res, htk]
    cases hres : r.res
    · rfl
    · exact absurd hres hkey
    · rfl
    · exact absurd hres hagain
    · rfl

/-- A call that waits changes nothing else, where the key of the forced look ends in the lower half. -/
theorem getkey_waits (h : tk.WellFormed) {r : Reply}
    (hr : tk.toSettings.reply tk.csi false tk.pending = some r) (hagain : r.res = .again)
    (hharmless : Harmless tk.csi (tk.toSettings.reply tk.csi true tk.pending))
    (hforced : ∀ r', tk.toSettings.reply tk.csi true tk.pending = some r' →
      tk.buffstart + tk.hightide + r'.nbytes ≤ (tk.buffsize / 2 : ℕ)) :
    ∃ store, termkeyGetkey tk = some (.again, tk.skipped, store) := by
  have hwf := TermKey.skipped_wellFormed h
  obtain ⟨p, hpeek, hp, hfits⟩ := peekkey_of_reply h _ hr
  have htk := TermKey.peeked_of_not_key hp (by rw [hagain]; exact TermKeyResult.noConfusion) hfits
  obtain ⟨r', hr', hnone, hcsi⟩ := hharmless
  have hlow := hforced r' hr'
  rw [← TermKey.skipped_pending h] at hr'
  obtain ⟨q, hpeek', hq, -⟩ := peekkey_of_reply hwf true hr'
  rw [TermKey.skipped_skipped] at hq
  have hqtk : q.tk = tk.skipped := by
    rcases hq.tk with hsame | ⟨-, hhalf, -⟩
    · have hcsi' : r'.csi = tk.skipped.csi := hcsi
      rw [hsame, stored_of_harmless hnone hcsi']
    · simp only [TermKey.skipped, TermKey.passed] at hhalf
      omega
  refine ⟨q.store ∘ p.store, ?_⟩
  rw [termkeyGetkey, hpeek, Option.bind_eq_bind, Option.bind_some, hp.res, hagain, htk]
  simp only [hpeek', Option.bind_some, hqtk]

theorem forced_left {r : Reply} {p : Peek} (h : tk.WellFormed) (hhightide : tk.hightide = 0)
    (hp : Peeked tk r p) (hfits : r.Fits tk.csi tk.bytes) (hkey : r.res = .key) :
    p.tk.buffstart < 0 ∨ p.tk.WellFormed ∧ p.tk.toSettings = tk.toSettings ∧ p.tk.pending ≠ [] := by
  have hpos := hfits.pos hkey
  have hle := hfits.le hkey
  rw [TermKey.length_bytes h] at hle
  have hleft : (tk.stored r).hightide = r.hightide.getD 0 := by rw [← hhightide]; rfl
  have hstored : (tk.stored r).WellFormed := by
    refine ⟨h.started, h.length, h.size, h.start, h.inside, ?_⟩
    rw [hleft]
    change _ ≤ tk.buffcount
    omega
  have hne : (tk.stored r).pending ≠ [] := by
    apply List.ne_nil_of_length_pos
    rw [TermKey.length_pending hstored, hleft]
    change 0 < tk.buffcount - _
    omega
  rcases hp.tk with htk | ⟨-, -, htk⟩
  · rw [htk]
    exact Or.inr ⟨hstored, rfl, hne⟩
  · rw [htk]
    by_cases hhalf : (tk.buffsize / 2 : ℕ) ≤ tk.buffstart
    · have hslid : (tk.stored r).slid.pending = (tk.stored r).pending := by
        rw [TermKey.pending, TermKey.slid_bytes hstored hhalf]
        rfl
      refine Or.inr ⟨TermKey.slid_wellFormed hstored hhalf, rfl, ?_⟩
      rw [hslid]
      exact hne
    · refine Or.inl ?_
      change tk.buffstart - (tk.buffsize / 2 : ℕ) < 0
      omega

theorem getkey_result (h : tk.WellFormed) (hne : tk.pending ≠ []) {res : TermKeyResult} {tk' : TermKey}
    {store : TermKeyKey → TermKeyKey} (hgot : termkeyGetkey tk = some (res, tk', store)) :
    (res = .key ∧ ∃ r, tk.toSettings.reply tk.csi false tk.pending = some r ∧ r.res = .key ∧ r.store = store) ∨
      (res = .again ∧
        (tk'.buffstart < 0 ∨ tk'.WellFormed ∧ tk'.toSettings = tk.toSettings ∧ tk'.pending ≠ [])) := by
  cases hr : tk.toSettings.reply tk.csi false tk.pending with
  | none =>
    rw [termkeyGetkey, peekkey_of_none h hr] at hgot
    cases hgot
  | some r =>
    by_cases hkey : r.res = .key
    · obtain ⟨tk'', hgot', -⟩ := getkey_of_key h hr hkey
      rw [hgot'] at hgot
      cases hgot
      exact Or.inl ⟨rfl, r, rfl, hkey, rfl⟩
    · have hagain := (Settings.reply_key_or_again hne hr).resolve_left hkey
      have hwf := TermKey.skipped_wellFormed h
      obtain ⟨p, hpeek, hp, hfits⟩ := peekkey_of_reply h false hr
      rw [termkeyGetkey, hpeek, Option.bind_eq_bind, Option.bind_some, hp.res, hagain,
        TermKey.peeked_of_not_key hp hkey hfits] at hgot
      obtain ⟨q, hpeek', hgot⟩ := Option.bind_eq_some_iff.1 hgot
      cases hgot
      refine Or.inr ⟨rfl, ?_⟩
      cases hr' : tk.skipped.toSettings.reply tk.skipped.csi true tk.skipped.pending with
      | none =>
        rw [peekkey_of_none hwf hr'] at hpeek'
        cases hpeek'
      | some r' =>
        obtain ⟨q', hsame, hq, hfits'⟩ := peekkey_of_reply hwf true hr'
        rw [hpeek'] at hsame
        cases hsame
        rw [TermKey.skipped_skipped] at hq hfits'
        have hkey' := Settings.reply_force_key (by rw [TermKey.skipped_pending h]; exact hne) hr'
        have hleft := forced_left hwf rfl hq hfits' hkey'
        exact hleft

theorem getkey_of_none (h : tk.WellFormed) (hr : tk.toSettings.reply tk.csi false tk.pending = none) :
    termkeyGetkey tk = none := by
  rw [termkeyGetkey, peekkey_of_none h hr]
  rfl

theorem moveDown_eq (h : tk.WellFormed) : ∃ blk, tk.moveDown = some { tk with buffer := blk, buffstart := 0 } ∧
    blk.length = tk.buffer.length ∧ blk.take tk.buffcount = tk.bytes := by
  have hstart := h.start
  have hinside := h.inside
  unfold TermKey.moveDown
  rw [if_neg (by omega)]
  split_ifs with hzero
  · refine ⟨tk.buffer, by rw [← hzero], rfl, ?_⟩
    rw [TermKey.bytes, hzero, Int.toNat_zero, List.drop_zero]
  · have hlen : tk.buffcount ≤ (tk.buffer.drop tk.buffstart.toNat).length := by
      rw [List.length_drop]
      omega
    refine ⟨tk.bytes ++ tk.buffer.drop tk.buffcount, ?_, ?_, ?_⟩
    · rw [memmove, memcpy, if_pos hlen, writeAt, if_pos (by rw [List.length_take]; omega), List.length_take,
        Nat.min_eq_left hlen, List.take_zero, List.nil_append, Nat.zero_add]
      rfl
    · rw [List.length_append, TermKey.length_bytes h, List.length_drop]
      omega
    · rw [List.take_append_of_le_length (TermKey.length_bytes h).ge,
        List.take_of_length_le (TermKey.length_bytes h).le]

theorem pushBytes_full (h : tk.WellFormed) (bytes : List Byte) (hfull : tk.buffsize ≤ tk.buffcount) :
    ∃ tk', termkeyPushBytes tk bytes = some (none, tk') ∧ tk.Appended [] tk' := by
  obtain ⟨blk, hmove, hlen, htake⟩ := moveDown_eq h
  have hstart := h.start
  have hinside := h.inside
  refine ⟨{ tk with buffer := blk, buffstart := 0 }, ?_,
    ⟨h.started, hlen.trans h.length, h.size, le_rfl, ?_, h.hightide⟩, rfl, rfl, rfl, rfl, rfl, ?_⟩
  · rw [termkeyPushBytes, hmove, Option.bind_eq_bind, Option.bind_some, if_pos hfull]
  · simp only
    omega
  · rw [List.append_nil, ← htake]
    rfl

theorem pushBytes_room (h : tk.WellFormed) (bytes : List Byte) (hroom : tk.buffcount < tk.buffsize) :
    ∃ tk', termkeyPushBytes tk bytes = some (some (min bytes.length (tk.buffsize - tk.buffcount)), tk') ∧
      tk.Appended (bytes.take (tk.buffsize - tk.buffcount)) tk' := by
  obtain ⟨blk, hmove, hlen, htake⟩ := moveDown_eq h
  have hsize := h.size
  have hhightide := h.hightide
  have hbuffer := h.length
  have hblk : (blk.take tk.buffcount ++ bytes.take (tk.buffsize - tk.buffcount)).length =
      tk.buffcount + min bytes.length (tk.buffsize - tk.buffcount) := by
    rw [List.length_append, List.length_take, List.length_take]
    omega
  have hmin : bytes.take (min bytes.length (tk.buffsize - tk.buffcount)) =
      bytes.take (tk.buffsize - tk.buffcount) := by
    rw [Nat.min_comm, ← List.take_take, List.take_length]
  have hwrite : memcpy blk tk.buffcount bytes (min bytes.length (tk.buffsize - tk.buffcount)) =
      some (blk.take tk.buffcount ++ bytes.take (tk.buffsize - tk.buffcount) ++
        blk.drop (tk.buffcount + min bytes.length (tk.buffsize - tk.buffcount))) := by
    rw [memcpy, if_pos (Nat.min_le_left _ _), hmin, writeAt, List.length_take, Nat.min_comm,
      if_pos (by omega)]
  refine ⟨{ tk with
      buffer := blk.take tk.buffcount ++ bytes.take (tk.buffsize - tk.buffcount) ++
        blk.drop (tk.buffcount + min bytes.length (tk.buffsize - tk.buffcount))
      buffstart := 0
      buffcount := tk.buffcount + min bytes.length (tk.buffsize - tk.buffcount) }, ?_,
    ⟨h.started, ?_, h.size, le_rfl, ?_, ?_⟩, rfl, rfl, rfl, rfl, rfl, ?_⟩
  · rw [termkeyPushBytes, hmove, Option.bind_eq_bind, Option.bind_some, if_neg (not_le.2 hroom)]
    dsimp only
    rw [hwrite]
    rfl
  · rw [List.length_append, hblk, List.length_drop]
    simp only
    omega
  · rw [List.length_append, hblk, List.length_drop]
    simp only
    omega
  · simp only
    omega
  · rw [TermKey.bytes, Int.toNat_zero, List.drop_zero, List.take_append_of_le_length hblk.ge,
      List.take_of_length_le hblk.le, htake]

theorem front_item {s : Settings} {csi : TermKeyCsi} {w : List Byte} {r : Reply}
    (hr : s.reply csi false w = some r) (hkey : r.res = .key) :
    s.front csi w = .item r.store (r.nbytes + r.hightide.getD 0) r.csi := by
  unfold Settings.front
  rw [hr]
  exact if_pos hkey

theorem front_wait {s : Settings} {csi : TermKeyCsi} {w : List Byte} {r : Reply}
    (hr : s.reply csi false w = some r) (hkey : r.res ≠ .key) : s.front csi w = .wait := by
  unfold Settings.front
  rw [hr]
  exact if_neg hkey

theorem getkeyForce_of_none (h : tk.WellFormed) (hr : tk.toSettings.reply tk.csi true tk.pending = none) :
    termkeyGetkeyForce tk = none := by
  rw [termkeyGetkeyForce, peekkey_of_none h hr]
  rfl

theorem getkeyForce_some (h : tk.WellFormed) {res : TermKeyResult} {tk' : TermKey}
    {store : TermKeyKey → TermKeyKey} (hgot : termkeyGetkeyForce tk = some (res, tk', store)) :
    (res = .key ∧ ∃ n, 0 < n ∧ n ≤ tk.pending.length ∧ tk.Took n tk') ∨
      (res ≠ .key ∧ tk.pending = [] ∧ tk.Took 0 tk' ∧ tk'.csi = tk.csi) := by
  cases hr : tk.toSettings.reply tk.csi true tk.pending with
  | none =>
    rw [getkeyForce_of_none h hr] at hgot
    cases hgot
  | some r =>
    by_cases hkey : r.res = .key
    · obtain ⟨tk'', hgot', htook, -⟩ := getkeyForce_of_key h hr hkey
      rw [hgot'] at hgot
      cases hgot
      have hfits := Settings.reply_fits hr
      exact Or.inl ⟨rfl, _, Nat.add_pos_left (hfits.pos hkey) _, hfits.le hkey, htook⟩
    · have hempty : tk.pending = [] := by_contra fun hne => hkey (Settings.reply_force_key hne hr)
      obtain ⟨p, hpeek, hp, hfits⟩ := peekkey_of_reply h true hr
      have htk := TermKey.peeked_of_not_key hp hkey hfits
      have hres : termkeyGetkeyForce tk = some (r.res, tk.skipped, p.store) := by
        rw [termkeyGetkeyForce, hpeek, Option.bind_eq_bind, Option.bind_some, hp.res, htk]
        cases hres : r.res
        · rfl
        · exact absurd hres hkey
        · rfl
        · rfl
        · rfl
      rw [hres] at hgot
      cases hgot
      exact Or.inr ⟨hkey, hempty, TermKey.skipped_took h, rfl⟩

theorem getkey_some (h : tk.WellFormed) (hs : tk.toSettings.Patient) {res : TermKeyResult} {tk' : TermKey}
    {store : TermKeyKey → TermKeyKey} (hgot : termkeyGetkey tk = some (res, tk', store)) :
    (res = .key ∧ ∃ n, tk.toSettings.front tk.csi tk.pending = .item store n tk'.csi ∧ tk.Took n tk') ∨
      (res ≠ .key ∧ tk.toSettings.front tk.csi tk.pending = .wait ∧
        (tk'.Wrapped ∨ tk.Took 0 tk' ∧ tk'.csi = tk.csi)) := by
  cases hr : tk.toSettings.reply tk.csi false tk.pending with
  | none =>
    rw [getkey_of_none h hr] at hgot
    cases hgot
  | some r =>
    by_cases hkey : r.res = .key
    · obtain ⟨tk'', hgot', htook, hcsi⟩ := getkey_of_key h hr hkey
      rw [hgot'] at hgot
      cases hgot
      exact Or.inl ⟨rfl, _, by rw [hcsi]; exact front_item hr hkey, htook⟩
    · obtain ⟨tk'', store', hgot', htook⟩ := getkey_of_not_key h hs hr hkey
      rw [hgot'] at hgot
      cases hgot
      exact Or.inr ⟨hkey, front_wait hr hkey, htook⟩

end Steps

section Start

theorem patient_csi {s : Settings} (hs : s.drivers = [.csi]) : s.Patient where
  defers csi w := by
    rw [hs]
    exact List.pairwise_singleton _ _
  plain csi root b w hmem := by
    rw [hs, List.mem_singleton] at hmem
    cases hmem

theorem termkeyNewAbstract_wellFormed {drivers : List Driver} {flags : BitVec 32} {fill : ℕ → Byte} {tk : TermKey}
    (hflags : ¬ HasFlag flags flagNostart) (h : termkeyNewAbstract drivers flags fill = some tk) :
    tk.WellFormed ∧ tk.pending = [] ∧ tk.drivers = drivers := by
  unfold termkeyNewAbstract at h
  obtain ⟨keynames, -, hnew⟩ := Option.bind_eq_some_iff.1 h
  cases hnew
  have hlen : (realloc [] 256 fill).length = 2 * (256 / 2) := by simp [realloc]
  exact ⟨⟨decide_eq_true hflags, hlen, (by decide : 256 = 2 * (256 / 2)), le_rfl, by simp, le_rfl⟩, rfl, rfl⟩

theorem termkeySetBufferSize_wellFormed {tk : TermKey} (h : tk.WellFormed) {size : ℕ} (heven : size = 2 * (size / 2))
    (hroom : tk.buffstart + tk.buffcount ≤ size) (fill : ℕ → Byte) :
    (termkeySetBufferSize tk size fill).WellFormed ∧ (termkeySetBufferSize tk size fill).pending = tk.pending := by
  have hstart := h.start
  have hinside := h.inside
  have hlen : (realloc tk.buffer size fill).length = size := by
    rw [realloc, List.length_append, List.length_take, List.length_map, List.length_range]
    omega
  refine ⟨⟨h.started, hlen.trans heven, heven, hstart, ?_, h.hightide⟩, ?_⟩
  · simp only [termkeySetBufferSize, hlen]
    exact hroom
  · refine congrArg (List.drop tk.hightide) ?_
    simp only [TermKey.bytes, termkeySetBufferSize, realloc]
    rw [List.drop_append_of_le_length (by rw [List.length_take]; omega),
      List.take_append_of_le_length (by rw [List.length_drop, List.length_take]; omega), List.drop_take,
      List.take_take, Nat.min_eq_left (by omega)]

theorem exists_pending (drivers : List Driver) {bytes : List Byte} (hroom : bytes.length ≤ 256) : ∃ tk : TermKey,
    tk.WellFormed ∧ tk.drivers = drivers ∧ tk.pending = bytes := by
  obtain ⟨tk₀, hnew⟩ : ∃ tk₀, termkeyNewAbstract drivers 0 (fun _ => 0) = some tk₀ := ⟨_, rfl⟩
  obtain ⟨hwf, hempty, hdrivers⟩ := termkeyNewAbstract_wellFormed (by decide) hnew
  have hfree : tk₀.buffsize - tk₀.buffcount = 256 ∧ tk₀.buffcount < tk₀.buffsize := by
    cases hnew
    exact ⟨rfl, Nat.succ_pos 255⟩
  obtain ⟨tk, -, happended⟩ := pushBytes_room hwf bytes hfree.2
  have hpushed := happended.pushed hwf
  rw [hfree.1, List.take_of_length_le hroom] at hpushed
  refine ⟨tk, hpushed.wellFormed, (congrArg Settings.drivers hpushed.settings).trans hdrivers, ?_⟩
  rw [hpushed.pending, hempty, List.nil_append]

end Start

inductive TermKeyCall
  | pushBytes (bytes : List Byte)
  | getkey
  | getkeyForce
deriving DecidableEq

/-- A TermKey with the bytes that it took and what the keys that it gave store. -/
structure KeySession where
  tk : TermKey
  taken : List Byte
  keys : List (TermKeyKey → TermKeyKey)

namespace KeySession

def got (st : KeySession) : Got → KeySession
  | (res, tk, store) => { st with tk, keys := if res = .key then st.keys ++ [store] else st.keys }

def call (st : KeySession) : TermKeyCall → Option KeySession
  | .pushBytes bytes => (termkeyPushBytes st.tk bytes).map fun (n, tk) =>
    { st with tk, taken := st.taken ++ bytes.take (n.getD 0) }
  | .getkey => (termkeyGetkey st.tk).map st.got
  | .getkeyForce => (termkeyGetkeyForce st.tk).map st.got

/-- The keys so far and those in the bytes that wait are the keys of all the bytes, also of those still to
come. -/
structure Decoded (tk₀ : TermKey) (st : KeySession) : Prop where
  wellFormed : st.tk.WellFormed
  settings : st.tk.toSettings = tk₀.toSettings
  decode : ∀ later, decode tk₀.toSettings.front tk₀.csi (tk₀.pending ++ st.taken ++ later) =
    (decode tk₀.toSettings.front st.tk.csi (st.tk.pending ++ later)).map fun (ks, t) => (st.keys ++ ks, t)

variable {tk₀ : TermKey} {st st' : KeySession}

theorem decoded_start (h : tk₀.WellFormed) : Decoded tk₀ ⟨tk₀, [], []⟩ where
  wellFormed := h
  settings := rfl
  decode later := by simp

theorem call_pushBytes (h : st.tk.WellFormed) (bytes : List Byte) : ∃ took st', st.call (.pushBytes bytes) = some st' ∧
    st.tk.Appended took st'.tk ∧ st'.taken = st.taken ++ took ∧ st'.keys = st.keys := by
  by_cases hfull : st.tk.buffsize ≤ st.tk.buffcount
  · obtain ⟨tk', hpush, happended⟩ := pushBytes_full h bytes hfull
    exact ⟨[], ⟨tk', st.taken ++ [], st.keys⟩, by rw [call, hpush]; rfl, happended, rfl, rfl⟩
  · obtain ⟨tk', hpush, happended⟩ := pushBytes_room h bytes (not_le.1 hfull)
    refine ⟨_, ⟨tk', st.taken ++ bytes.take (st.tk.buffsize - st.tk.buffcount), st.keys⟩, ?_, happended, rfl, rfl⟩
    rw [call, hpush, Option.map_some]
    dsimp only
    rw [Option.getD_some, Nat.min_comm, ← List.take_take, List.take_length]

theorem pushBytes_pushed (h : st.tk.WellFormed) {bytes : List Byte} (hcall : st.call (.pushBytes bytes) = some st') :
    ∃ took, st.tk.Pushed took st'.tk ∧ st'.taken = st.taken ++ took ∧ st'.keys = st.keys := by
  obtain ⟨took, st₁, hcall', happended, htaken, hkeys⟩ := call_pushBytes h bytes
  rw [hcall'] at hcall
  cases hcall
  exact ⟨took, happended.pushed h, htaken, hkeys⟩

theorem Decoded.pushBytes (h : Decoded tk₀ st) {bytes : List Byte} (hcall : st.call (.pushBytes bytes) = some st') :
    Decoded tk₀ st' := by
  obtain ⟨took, hpushed, htaken, hkeys⟩ := pushBytes_pushed h.wellFormed hcall
  refine ⟨hpushed.wellFormed, hpushed.settings.trans h.settings, fun later => ?_⟩
  rw [htaken, hpushed.csi, hpushed.pending, hkeys, List.append_assoc, List.append_assoc, List.append_assoc,
    ← List.append_assoc tk₀.pending]
  exact h.decode (took ++ later)

theorem Decoded.getkey (hs : tk₀.toSettings.Patient) (h : Decoded tk₀ st) (hcall : st.call .getkey = some st') :
    st'.tk.Wrapped ∨ Decoded tk₀ st' := by
  obtain ⟨⟨res, tk, store⟩, hgot, rfl⟩ := Option.map_eq_some_iff.1 hcall
  have hsound := Settings.front_sound hs
  rcases getkey_some h.wellFormed (by rw [h.settings]; exact hs) hgot with
    ⟨rfl, n, hfront, htook⟩ | ⟨hres, -, hwrapped | ⟨htook, hcsi⟩⟩
  · refine Or.inr ⟨htook.wellFormed, htook.settings.trans h.settings, fun later => ?_⟩
    rw [h.settings] at hfront
    have hlen := (hsound.taken hfront).2
    have hitem := hsound.decode_item (hsound.item_append later hfront)
    simp only [got, if_true]
    rw [h.decode later, hitem, htook.pending, List.drop_append_of_le_length hlen]
    simp [Function.comp_def]
  · exact Or.inl hwrapped
  · refine Or.inr ⟨htook.wellFormed, htook.settings.trans h.settings, fun later => ?_⟩
    simp only [got, if_neg hres]
    rw [hcsi, htook.pending, List.drop_zero]
    exact h.decode later

theorem call_of_wrapped (h : st.tk.Wrapped) (c : TermKeyCall) : st.call c = none := by
  cases c with
  | pushBytes bytes => rw [call, h.pushBytes, Option.map_none]
  | getkey => rw [call, h.getkey, Option.map_none]
  | getkeyForce => rw [call, h.getkeyForce, Option.map_none]

/-- What every call keeps or else wraps `buffstart` around in, a run keeps or has wrapped it around at its
end. -/
theorem run_keeps {I W : KeySession → Prop} (hW : ∀ st, W st → st.tk.Wrapped) {calls : List TermKeyCall}
    (hstep : ∀ c ∈ calls, ∀ st st', I st → st.call c = some st' → W st' ∨ I st') (h : I st)
    (hrun : run call st calls = some st') : W st' ∨ I st' := by
  induction calls generalizing st with
  | nil =>
    cases hrun
    exact Or.inr h
  | cons c calls ih =>
    obtain ⟨st₁, hcall, hrest⟩ := Option.bind_eq_some_iff.1 hrun
    obtain ⟨hc, hcalls⟩ := List.forall_mem_cons.1 hstep
    rcases hc st st₁ h hcall with hwrapped | hkept
    · cases calls with
      | nil =>
        cases hrest
        exact Or.inl hwrapped
      | cons c calls =>
        rw [run, call_of_wrapped (hW _ hwrapped)] at hrest
        cases hrest
    · exact ih hcalls hkept hrest

/-- The keys of a run are those of the bytes it took, in whatever order it pushed them and asked for keys. -/
theorem run_decoded (h : tk₀.WellFormed) (hs : tk₀.toSettings.Patient) {calls : List TermKeyCall}
    (hcalls : .getkeyForce ∉ calls) (hrun : run call ⟨tk₀, [], []⟩ calls = some st) :
    st.tk.Wrapped ∨ Decoded tk₀ st := by
  refine run_keeps (fun st hst => hst) (fun c hmem st st' hst hcall => ?_) (decoded_start h) hrun
  cases c with
  | pushBytes bytes => exact Or.inr (hst.pushBytes hcall)
  | getkey => exact hst.getkey hs hcall
  | getkeyForce => exact absurd hmem hcalls

/-- Nothing is left to take: the next call finds no key. -/
def Drained (st : KeySession) : Prop := ∃ res tk store, termkeyGetkey st.tk = some (res, tk, store) ∧ res ≠ .key

theorem run_drained (h : tk₀.WellFormed) (hs : tk₀.toSettings.Patient) {calls : List TermKeyCall}
    (hcalls : .getkeyForce ∉ calls) (hrun : run call ⟨tk₀, [], []⟩ calls = some st) (hdrained : st.Drained) :
    decode tk₀.toSettings.front tk₀.csi (tk₀.pending ++ st.taken) =
      some (st.keys, st.tk.csi, st.tk.pending) := by
  obtain ⟨res, tk, store, hgot, hres⟩ := hdrained
  rcases run_decoded h hs hcalls hrun with hwrapped | hdecoded
  · rw [hwrapped.getkey] at hgot
    cases hgot
  · have hsettings : st.tk.toSettings.Patient := by
      rw [hdecoded.settings]
      exact hs
    rcases getkey_some hdecoded.wellFormed hsettings hgot with ⟨hkey, -⟩ | ⟨-, hfront, -⟩
    · exact absurd hkey hres
    · rw [hdecoded.settings] at hfront
      have hall := hdecoded.decode []
      rw [List.append_nil, List.append_nil, decode_wait hfront] at hall
      rw [hall]
      simp

/-- The cuts of the input do not matter: two drained runs that took the same bytes gave the same keys and
left the same bytes waiting. -/
theorem run_cuts (h : tk₀.WellFormed) (hs : tk₀.toSettings.Patient) {calls calls' : List TermKeyCall}
    (hcalls : .getkeyForce ∉ calls) (hcalls' : .getkeyForce ∉ calls')
    (hrun : run call ⟨tk₀, [], []⟩ calls = some st) (hrun' : run call ⟨tk₀, [], []⟩ calls' = some st')
    (htaken : st.taken = st'.taken) (hdrained : st.Drained) (hdrained' : st'.Drained) :
    st.keys = st'.keys ∧ st.tk.csi = st'.tk.csi ∧ st.tk.pending = st'.tk.pending := by
  have hall := run_drained h hs hcalls hrun hdrained
  have hall' := run_drained h hs hcalls' hrun' hdrained'
  rw [htaken, hall', Option.some_inj, Prod.mk_inj, Prod.mk_inj] at hall
  exact ⟨hall.1.symm, hall.2.1.symm, hall.2.2.symm⟩

theorem exists_drained {calls : List TermKeyCall} {taken : List Byte} {res : TermKeyResult} (hres : res ≠ .key)
    (h : (run call st calls).map (fun st => (st.taken, (termkeyGetkey st.tk).map Prod.fst)) =
      some (taken, some res)) :
    ∃ st', run call st calls = some st' ∧ st'.taken = taken ∧ st'.Drained := by
  obtain ⟨st', hrun, heq⟩ := Option.map_eq_some_iff.1 h
  rw [Prod.mk_inj] at heq
  obtain ⟨got, hgot, rfl⟩ := Option.map_eq_some_iff.1 heq.2
  exact ⟨st', hrun, heq.1, got.1, got.2.1, got.2.2, hgot, hres⟩

/-- The up key of a vt220, cut behind its escape, with terminfo in front of the CSI driver. -/
theorem run_cuts_arrow : ∃ root tk₀ st st', loadTerminfo vt220 = some root ∧
    termkeyNewAbstract [.ti root, .csi] 0 (fun _ => 0) = some tk₀ ∧
    run call ⟨tk₀, [], []⟩ [.pushBytes [0x1b, 0x5b, 0x41], .getkey] = some st ∧
    run call ⟨tk₀, [], []⟩ [.pushBytes [0x1b], .getkey, .pushBytes [0x5b, 0x41], .getkey] = some st' ∧
    st.keys = st'.keys := by
  obtain ⟨root, hload, -, hpatient⟩ := loadTerminfo_vt220
  obtain ⟨tk₀, hnew⟩ : ∃ tk₀, termkeyNewAbstract [.ti root, .csi] 0 (fun _ => 0) = some tk₀ := ⟨_, rfl⟩
  obtain ⟨hwf, -, hdrivers⟩ := termkeyNewAbstract_wellFormed (by decide) hnew
  have hruns : ∀ calls, ((loadTerminfo vt220).bind fun root =>
      (termkeyNewAbstract [.ti root, .csi] 0 fun _ => 0).bind fun tk => (run call ⟨tk, [], []⟩ calls).map fun st =>
        (st.taken, (termkeyGetkey st.tk).map Prod.fst)) = some ([0x1b, 0x5b, 0x41], some .none) →
      ∃ st, run call ⟨tk₀, [], []⟩ calls = some st ∧ st.taken = [0x1b, 0x5b, 0x41] ∧ st.Drained := by
    intro calls h
    rw [hload, Option.bind_some, hnew, Option.bind_some] at h
    exact exists_drained TermKeyResult.noConfusion h
  obtain ⟨st, hrun, htaken, hdrained⟩ := hruns [.pushBytes [0x1b, 0x5b, 0x41], .getkey] (by decide +kernel)
  obtain ⟨st', hrun', htaken', hdrained'⟩ :=
    hruns [.pushBytes [0x1b], .getkey, .pushBytes [0x5b, 0x41], .getkey] (by decide +kernel)
  exact ⟨root, tk₀, st, st', hload, hnew, hrun, hrun', (run_cuts hwf (hpatient _ hdrivers) (by decide) (by decide)
    hrun hrun' (htaken.trans htaken'.symm) hdrained hdrained').1⟩

/-- The TermKey is whole, and of what it had and took it gave the first bytes in keys, of one byte or more
each, and has the others. -/
structure Fifo (tk₀ : TermKey) (st : KeySession) : Prop where
  wellFormed : st.tk.WellFormed
  settings : st.tk.toSettings = tk₀.toSettings
  split : ∃ gone, tk₀.pending ++ st.taken = gone ++ st.tk.pending ∧ st.keys.length ≤ gone.length

theorem Fifo.took {tk : TermKey} {n : ℕ} {keys : List (TermKeyKey → TermKeyKey)} (h : Fifo tk₀ st)
    (htook : st.tk.Took n tk) (hn : n ≤ st.tk.pending.length) (hkeys : keys.length ≤ st.keys.length + n) :
    Fifo tk₀ ⟨tk, st.taken, keys⟩ where
  wellFormed := htook.wellFormed
  settings := htook.settings.trans h.settings
  split := by
    obtain ⟨gone, hsplit, hlen⟩ := h.split
    refine ⟨gone ++ st.tk.pending.take n, ?_, ?_⟩
    · rw [htook.pending, List.append_assoc, List.take_append_drop]
      exact hsplit
    · rw [List.length_append, List.length_take]
      simp only
      omega

theorem Fifo.start (h : tk₀.WellFormed) : Fifo tk₀ ⟨tk₀, [], []⟩ := ⟨h, rfl, [], by simp, le_rfl⟩

theorem Fifo.call (hs : tk₀.toSettings.Patient) (hst : Fifo tk₀ st) {c : TermKeyCall}
    (hcall : st.call c = some st') : st'.tk.Wrapped ∨ Fifo tk₀ st' := by
  cases c with
  | pushBytes bytes =>
    obtain ⟨took, hpushed, htaken, hkeys⟩ := pushBytes_pushed hst.wellFormed hcall
    obtain ⟨gone, hsplit, hlen⟩ := hst.split
    refine Or.inr ⟨hpushed.wellFormed, hpushed.settings.trans hst.settings, gone, ?_, by rw [hkeys]; exact hlen⟩
    rw [htaken, hpushed.pending, ← List.append_assoc, hsplit, List.append_assoc]
  | getkey =>
    obtain ⟨⟨res, tk, store⟩, hgot, rfl⟩ := Option.map_eq_some_iff.1 hcall
    have hst' : st.tk.toSettings.Patient := by
      rw [hst.settings]
      exact hs
    rcases getkey_some hst.wellFormed hst' hgot with ⟨rfl, n, hfront, htook⟩ | ⟨hres, -, hwrapped | ⟨htook, -⟩⟩
    · obtain ⟨hpos, hn⟩ := (Settings.front_sound hst').taken hfront
      exact Or.inr (hst.took htook hn (by simp only [if_true, List.length_append, List.length_singleton]; omega))
    · exact Or.inl hwrapped
    · exact Or.inr (hst.took htook (Nat.zero_le _) (by rw [if_neg hres]; omega))
  | getkeyForce =>
    obtain ⟨⟨res, tk, store⟩, hgot, rfl⟩ := Option.map_eq_some_iff.1 hcall
    rcases getkeyForce_some hst.wellFormed hgot with ⟨rfl, n, hpos, hn, htook⟩ | ⟨hres, -, htook, -⟩
    · exact Or.inr (hst.took htook hn (by simp only [if_true, List.length_append, List.length_singleton]; omega))
    · exact Or.inr (hst.took htook (Nat.zero_le _) (by rw [if_neg hres]; omega))

-- a slide below the half wraps `buffstart` around
example : ((termkeyNewAbstract [.csi] 0 fun _ => 0).bind fun tk =>
    (run call ⟨termkeySetBufferSize tk 8 fun _ => 0, [], []⟩
      [.pushBytes [0x61, 0x62, 0x63, 0x1b, 0x1b, 0x1b, 0x5b], .getkey, .getkey, .getkey, .getkey]).map
        fun st => (st.keys.length, st.tk.buffstart)) = some (3, -1) := by decide +kernel

/-- A buffer that is full of an unfinished sequence takes nothing and gives nothing any more, but to a forced
call. -/
theorem run_stuck (h : tk₀.WellFormed) (hs : tk₀.toSettings.Patient)
    (hfull : tk₀.pending.length = tk₀.buffsize)
    (hwait : tk₀.toSettings.front tk₀.csi tk₀.pending = .wait) {calls : List TermKeyCall}
    (hcalls : .getkeyForce ∉ calls) (hrun : run call ⟨tk₀, [], []⟩ calls = some st) :
    st.taken = [] ∧ st.keys = [] := by
  have hkept := run_keeps (I := fun st => (tk₀.Pushed [] st.tk) ∧ st.taken = [] ∧ st.keys = [])
    (W := fun st => st.tk.Wrapped ∧ st.taken = [] ∧ st.keys = []) (fun st hst => hst.1)
    (fun c hmem st st' hst hcall => ?_) ⟨⟨h, rfl, rfl, rfl, (List.append_nil _).symm⟩, rfl, rfl⟩ hrun
  · rcases hkept with ⟨-, hnone⟩ | ⟨-, hnone⟩
    · exact hnone
    · exact hnone
  · obtain ⟨⟨hwf, hsettings, hcsi, hsize, hpending⟩, htaken, hkeys⟩ := hst
    rw [List.append_nil] at hpending
    cases c with
    | pushBytes bytes =>
      have hcount : st.tk.buffsize ≤ st.tk.buffcount := by
        have hlen := TermKey.length_pending hwf
        rw [hpending, hfull] at hlen
        omega
      obtain ⟨tk, hpush, happended⟩ := pushBytes_full hwf bytes hcount
      have hpushed := happended.pushed hwf
      rw [call, hpush] at hcall
      cases hcall
      refine Or.inr ⟨⟨hpushed.wellFormed, hpushed.settings.trans hsettings, hpushed.csi.trans hcsi,
        hpushed.buffsize.trans hsize, ?_⟩, ?_, hkeys⟩
      · rw [hpushed.pending, hpending]
      · simp [htaken]
    | getkey =>
      obtain ⟨⟨res, tk, store⟩, hgot, rfl⟩ := Option.map_eq_some_iff.1 hcall
      rcases getkey_some hwf (by rw [hsettings]; exact hs) hgot with
        ⟨-, n, hfront, -⟩ | ⟨hres, -, hwrapped | ⟨htook, hcsi'⟩⟩
      · rw [hsettings, hcsi, hpending, hwait] at hfront
        cases hfront
      · exact Or.inl ⟨hwrapped, htaken, by simp only [got, if_neg hres, hkeys]⟩
      · refine Or.inr ⟨⟨htook.wellFormed, htook.settings.trans hsettings, hcsi'.trans hcsi,
          htook.buffsize.trans hsize, ?_⟩, htaken, by simp only [got, if_neg hres, hkeys]⟩
        exact htook.pending.trans (by rw [hpending, List.drop_zero, List.append_nil])
    | getkeyForce => exact absurd hmem hcalls

theorem run_stuck_dcs : ∃ tk tk₀ st, termkeyNewAbstract [.csi] 0 (fun _ => 0) = some tk ∧
    termkeyPushBytes (termkeySetBufferSize tk 4 fun _ => 0) [0x1b, 0x50, 0x61, 0x62] = some (some 4, tk₀) ∧
    run call ⟨tk₀, [], []⟩ [.pushBytes [0x9c], .getkey] = some st ∧ st.keys = [] := by
  obtain ⟨tk, hnew⟩ : ∃ tk, termkeyNewAbstract [.csi] 0 (fun _ => 0) = some tk := ⟨_, rfl⟩
  obtain ⟨hwf, hempty, hdrivers⟩ := termkeyNewAbstract_wellFormed (by decide) hnew
  have hcount : tk.buffstart + tk.buffcount ≤ (4 : ℕ) := by
    cases hnew
    decide
  obtain ⟨hsized, hsame⟩ := termkeySetBufferSize_wellFormed hwf (by decide : 4 = 2 * (4 / 2)) hcount fun _ => 0
  have hfree : (termkeySetBufferSize tk 4 fun _ => 0).buffcount = 0 := by
    cases hnew
    rfl
  obtain ⟨tk₀, hpush, happended⟩ := pushBytes_room hsized [0x1b, 0x50, 0x61, 0x62] (by rw [hfree]; exact Nat.succ_pos 3)
  have hpushed := happended.pushed hsized
  rw [hfree] at hpush hpushed
  have hpending : tk₀.pending = [0x1b, 0x50, 0x61, 0x62] := by
    rw [hpushed.pending, hsame, hempty]
    rfl
  have hsettings : tk₀.toSettings = tk.toSettings := hpushed.settings
  have hwait : tk₀.toSettings.front tk₀.csi tk₀.pending = .wait := by
    rw [hpending, hsettings, hpushed.csi]
    cases hnew
    rfl
  have hsome : ((termkeyPushBytes (termkeySetBufferSize tk 4 fun _ => 0) [0x1b, 0x50, 0x61, 0x62]).map fun p =>
      (run call ⟨p.2, [], []⟩ [.pushBytes [0x9c], .getkey]).isSome) = some true := by
    cases hnew
    decide +kernel
  rw [hpush] at hsome
  obtain ⟨st, hrun⟩ := Option.isSome_iff_exists.1 (Option.some.inj hsome)
  exact ⟨tk, tk₀, st, hnew, hpush, hrun, (run_stuck hpushed.wellFormed
    (patient_csi ((congrArg Settings.drivers hsettings).trans hdrivers)) (by rw [hpending, hpushed.buffsize]; rfl)
    hwait (by decide) hrun).2⟩

end KeySession

end MutantC.Libtermkey
