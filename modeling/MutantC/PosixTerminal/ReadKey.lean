import MutantC.Libtermkey.TermkeyKinds
import MutantC.Libtermkey.TermkeyRuns

/-! `read_key` of posix_terminal: the bytes of standard input go to the TermKey one by one, until it makes a key
of them; a printable one never gets there. `none` from a function is a failure of the TermKey. -/

namespace MutantC.PosixTerminal
open CBuffer Libtermkey StreamDecoder

inductive PosixLogicalKey
  | unknown | invalid | ascii | tab | enter | del | backspace | up | down | left | right | home | end
  | ctrlL | ctrlC
deriving DecidableEq

structure PosixKeyinput where
  rawChar : Byte
  logicalKey : PosixLogicalKey
deriving DecidableEq

def symLogicalkeys : List (TermKeySym × PosixLogicalKey) :=
  [(symUnknown, .unknown), (Sym.tab.val, .tab), (Sym.enter.val, .enter), (Sym.del.val, .del),
    (Sym.backspace.val, .backspace), (Sym.up.val, .up), (Sym.down.val, .down), (Sym.left.val, .left),
    (Sym.right.val, .right), (Sym.home.val, .home), (Sym.end.val, .end)]

def termkeySymToLogicalkey (s : TermKeySym) : PosixLogicalKey := (symLogicalkeys.lookup s).getD .unknown

def logicalKeyOf (key : TermKeyKey) : PosixLogicalKey :=
  match key.type with
  | .unicode =>
    if key.code = .codepoint 0x6c ∧ HasFlag key.modifiers keymodCtrl then .ctrlL
    else if key.code = .codepoint 0x63 ∧ HasFlag key.modifiers keymodCtrl then .ctrlC
    else .unknown
  | .keysym => termkeySymToLogicalkey key.code.asSym
  | _ => .unknown

/-- The state of `read_key`; `tk_key` is told by what has been stored there. -/
structure Reading where
  tk : TermKey
  stdin : List Byte
  rawC : Byte
  store : TermKeyKey → TermKeyKey
  res : TermKeyResult

namespace Reading

/-- `read(STDIN_FILENO, &raw_c, 1)`, which leaves `raw_c` as it is at the end of the input. -/
def read (r : Reading) : Reading :=
  match r.stdin with
  | [] => r
  | c :: stdin => { r with stdin, rawC := c }

theorem read_tk (r : Reading) : r.read.tk = r.tk := by
  unfold read
  split
  · rfl
  · rfl

def feed (r : Reading) : Option Reading := do
  let (_, tk) ← termkeyPushBytes r.tk [r.rawC]
  let (res, tk, store) ← termkeyGetkey tk
  some { r with tk, res, store := store ∘ r.store }

/-- The loop while the TermKey waits for more bytes; `some none` is one that has not ended after `fuel` rounds. -/
def whileAgain : ℕ → Reading → Option (Option Reading)
  | 0, r => if r.res = .again then some none else some (some r)
  | fuel + 1, r => if r.res = .again then r.read.feed.bind (whileAgain fuel) else some (some r)

end Reading

def IsAscii (c : Byte) : Prop := 32 ≤ c ∧ c ≤ 126

instance (c : Byte) : Decidable (IsAscii c) := inferInstanceAs (Decidable (32 ≤ c ∧ c ≤ 126))

/-- `key` is what stands in `tk_key` at first. -/
def posixTerminalClassReadKey (fuel : ℕ) (tk : TermKey) (stdin : List Byte) (key : TermKeyKey) :
    Option (Option (PosixKeyinput × TermKey × List Byte)) :=
  let r := Reading.read ⟨tk, stdin, 0, id, .none⟩
  if IsAscii r.rawC then some (some (⟨r.rawC, .ascii⟩, tk, r.stdin))
  else
    (r.feed.bind (Reading.whileAgain fuel)).map fun out =>
      out.map fun last => (⟨r.rawC, logicalKeyOf (last.store key)⟩, last.tk, last.stdin)

/-- A call that returns, whatever stands in `tk_key` at first. -/
def Reads (st : TermKey × List Byte) (k : PosixKeyinput) (st' : TermKey × List Byte) : Prop :=
  ∃ fuel, ∀ key, posixTerminalClassReadKey fuel st.1 st.2 key = some (some (k, st'))

def ReadsAll : TermKey × List Byte → List PosixKeyinput → TermKey × List Byte → Prop
  | st, [], st' => st = st'
  | st, k :: ks, st' => ∃ st₁, Reads st k st₁ ∧ ReadsAll st₁ ks st'

/-- The TermKey is whole, waits with the bytes `w`, and has room beside those of a sequence that was reported
without them. -/
structure Holds (s : Settings) (csi : TermKeyCsi) (size : ℕ) (w : List Byte) (tk : TermKey) : Prop where
  wellFormed : tk.WellFormed
  settings : tk.toSettings = s
  csi : tk.csi = csi
  buffsize : tk.buffsize = size
  pending : tk.pending = w
  hightide : tk.hightide < size

section Feed
variable {s : Settings} {csi csi' : TermKeyCsi} {size : ℕ} {w w' : List Byte} {tk : TermKey} {r : Reading}

theorem Holds.buffcount (h : Holds s csi size w tk) : tk.buffcount = tk.hightide + w.length := by
  have hlen := TermKey.length_pending h.wellFormed
  have hle := h.wellFormed.hightide
  rw [h.pending] at hlen
  omega

theorem Holds.pushBytes (h : Holds s csi size w tk) (c : Byte) : ∃ n tk', termkeyPushBytes tk [c] = some (n, tk') ∧
    Holds s csi size (w ++ [c].take (size - (tk.hightide + w.length))) tk' ∧ tk'.buffstart = 0 ∧
      tk'.hightide = tk.hightide := by
  obtain ⟨n, tk', hpush, happended⟩ : ∃ n tk', termkeyPushBytes tk [c] = some (n, tk') ∧
      tk.Appended ([c].take (tk.buffsize - tk.buffcount)) tk' := by
    by_cases hfull : tk.buffsize ≤ tk.buffcount
    · obtain ⟨tk', hpush, happended⟩ := pushBytes_full h.wellFormed [c] hfull
      refine ⟨none, tk', hpush, ?_⟩
      rw [Nat.sub_eq_zero_of_le hfull, List.take_zero]
      exact happended
    · obtain ⟨tk', hpush, happended⟩ := pushBytes_room h.wellFormed [c] (not_le.1 hfull)
      exact ⟨_, tk', hpush, happended⟩
  have hpushed := happended.pushed h.wellFormed
  refine ⟨n, tk', hpush, ⟨hpushed.wellFormed, hpushed.settings.trans h.settings, hpushed.csi.trans h.csi,
    hpushed.buffsize.trans h.buffsize, ?_, happended.hightide ▸ h.hightide⟩, happended.start, happended.hightide⟩
  rw [hpushed.pending, h.pending, h.buffsize, h.buffcount]

theorem Holds.skipped (h : Holds s csi size w tk) : Holds s csi size w tk.skipped where
  wellFormed := TermKey.skipped_wellFormed h.wellFormed
  settings := h.settings
  csi := h.csi
  buffsize := h.buffsize
  pending := (TermKey.skipped_pending h.wellFormed).trans h.pending
  hightide := Nat.zero_lt_of_lt h.hightide

theorem reply_of_wait (hw : w ≠ []) (hfront : s.front csi w = .wait) : ∃ r, s.reply csi false w = some r ∧ r.res = .again := by
  unfold Settings.front at hfront
  split at hfront
  · cases hfront
  · rename_i r hr
    split_ifs at hfront with hkey
    exact ⟨r, hr, (Settings.reply_key_or_again hw hr).resolve_left hkey⟩

theorem reply_of_item {store : TermKeyKey → TermKeyKey} {n : ℕ} (hfront : s.front csi w = .item store n csi') :
    ∃ r, s.reply csi false w = some r ∧ r.res = .key ∧ r.store = store ∧ r.nbytes + r.hightide.getD 0 = n ∧ r.csi = csi' := by
  unfold Settings.front at hfront
  split at hfront
  · cases hfront
  · rename_i r hr
    split_ifs at hfront with hkey
    cases hfront
    exact ⟨r, hr, hkey, rfl, rfl, rfl⟩

def fed (size : ℕ) (r : Reading) (w : List Byte) : List Byte :=
  w ++ [r.rawC].take (size - (r.tk.hightide + w.length))

theorem fed_of_room (h : r.tk.hightide + w.length < size) : fed size r w = w ++ [r.rawC] := by
  rw [fed, List.take_of_length_le]
  rw [List.length_singleton]
  omega

/-- The TermKey waits behind the bytes, and the look in force mode stores nothing in it. -/
structure Awaited (s : Settings) (csi : TermKeyCsi) (w : List Byte) : Prop where
  front : s.front csi w = .wait
  harmless : Harmless csi (s.reply csi true w)

theorem awaited_of_patient (hs : s.Patient) (hw : w ≠ []) (hfront : s.front csi w = .wait) : Awaited s csi w := by
  obtain ⟨r, hr, hagain⟩ := reply_of_wait hw hfront
  exact ⟨hfront, Settings.reply_force_harmless hs hr hagain⟩

theorem feed_of_wait (h : Holds s csi size w r.tk) (hne : fed size r w ≠ []) (hawaited : Awaited s csi (fed size r w))
    (hforced : ∀ r', s.reply csi true (fed size r w) = some r' → r.tk.hightide + r'.nbytes ≤ size / 2) :
    ∃ tk' store, r.feed = some { r with tk := tk', store, res := .again } ∧ Holds s csi size (fed size r w) tk' ∧
      tk'.hightide = 0 := by
  obtain ⟨n, tk', hpush, hholds, hstart, hhightide⟩ := h.pushBytes r.rawC
  obtain ⟨reply, hreply, hagain⟩ := reply_of_wait hne hawaited.front
  have hharmless : Harmless tk'.csi (tk'.toSettings.reply tk'.csi true tk'.pending) := by
    rw [hholds.settings, hholds.csi, hholds.pending]
    exact hawaited.harmless
  have hsame : tk'.toSettings.reply tk'.csi false tk'.pending = some reply := by
    rw [hholds.settings, hholds.csi, hholds.pending]
    exact hreply
  obtain ⟨store, hgot⟩ := getkey_waits hholds.wellFormed hsame hagain hharmless fun r' hr' => by
    rw [hholds.settings, hholds.csi, hholds.pending] at hr'
    have hlow := hforced r' hr'
    rw [hstart, hhightide, hholds.buffsize]
    omega
  refine ⟨tk'.skipped, store ∘ r.store, ?_, hholds.skipped, rfl⟩
  rw [Reading.feed, hpush, Option.bind_eq_bind, Option.bind_some]
  dsimp only
  rw [hgot]
  rfl

theorem feed_of_item (h : Holds s csi size w r.tk) {store : TermKeyKey → TermKeyKey} {n : ℕ}
    (hfront : s.front csi (fed size r w) = .item store n csi') :
    ∃ tk', r.feed = some { r with tk := tk', store := store ∘ r.store, res := .key } ∧
      Holds s csi' size ((fed size r w).drop n) tk' ∧ tk'.hightide < n := by
  obtain ⟨n', tk', hpush, hholds, -, -⟩ := h.pushBytes r.rawC
  obtain ⟨reply, hreply, hkey, rfl, rfl, rfl⟩ := reply_of_item hfront
  have hsame : tk'.toSettings.reply tk'.csi false tk'.pending = some reply := by
    rw [hholds.settings, hholds.csi, hholds.pending]
    exact hreply
  have hpos := (Settings.reply_fits hreply).pos hkey
  obtain ⟨tk'', hgot, htook, hcsi⟩ := getkey_of_key hholds.wellFormed hsame hkey
  obtain ⟨tk₁, hgot', -, -, hhightide⟩ := getkey_left hholds.wellFormed hsame hkey
  rw [hgot] at hgot'
  cases hgot'
  have hle := (Settings.reply_fits hreply).le hkey
  have hcount := hholds.buffcount
  have hinside := hholds.wellFormed.inside
  have hlen := hholds.wellFormed.length
  have hsize := hholds.wellFormed.size
  have hstart := hholds.wellFormed.start
  have hbuffsize := hholds.buffsize
  refine ⟨tk'', ?_, ⟨htook.wellFormed, htook.settings.trans hholds.settings, hcsi, htook.buffsize.trans hholds.buffsize,
    ?_, ?_⟩, ?_⟩
  · rw [Reading.feed, hpush, Option.bind_eq_bind, Option.bind_some]
    dsimp only
    rw [hgot]
    rfl
  · rw [htook.pending, hholds.pending]
    rfl
  · rw [hhightide]
    unfold fed at hle
    omega
  · rw [hhightide]
    omega

end Feed

section Items
variable {s : Settings} {csi csi' : TermKeyCsi} {size : ℕ} {w : List Byte} {tk : TermKey} {r : Reading}
  {store : TermKeyKey → TermKeyKey}

theorem Reading.read_cons {c : Byte} {stdin : List Byte} (h : r.stdin = c :: stdin) :
    r.read = { r with stdin, rawC := c } := by
  rw [Reading.read, h]

/-- The bytes in front of the last one are waited behind, and the looks in force mode at them end in the lower
half. -/
def WaitsBefore (s : Settings) (csi : TermKeyCsi) (size hightide : ℕ) (whole : List Byte) : Prop :=
  ∀ p ys, p ≠ [] → ys ≠ [] → p ++ ys = whole →
    Awaited s csi p ∧ ∀ r', s.reply csi true p = some r' → hightide + r'.nbytes ≤ size / 2

theorem exists_last {todo rest : List Byte} {n : ℕ} (h : Holds s csi size w r.tk)
    (hroom : r.tk.hightide + w.length < size) (hfit : w.length + 1 + todo.length ≤ size) (hstdin : r.stdin = todo ++ rest)
    (hitem : s.front csi (w ++ r.rawC :: todo) = .item store n csi')
    (hbefore : WaitsBefore s csi size r.tk.hightide (w ++ r.rawC :: todo)) :
    ∃ fuel last before, r.feed.bind (Reading.whileAgain fuel) = some (some last) ∧ last.store = store ∘ before ∧
      last.stdin = rest ∧ Holds s csi' size ((w ++ r.rawC :: todo).drop n) last.tk ∧ last.tk.hightide < n := by
  have hfed := fed_of_room hroom
  induction todo generalizing w r with
  | nil =>
    rw [← hfed] at hitem ⊢
    obtain ⟨tk', hfeed, hholds, hlow⟩ := feed_of_item h hitem
    refine ⟨0, { r with tk := tk', store := store ∘ r.store, res := .key }, r.store, ?_, rfl, hstdin, hholds, hlow⟩
    rw [hfeed, Option.bind_some]
    exact if_neg TermKeyResult.noConfusion
  | cons c todo ih =>
    have hsplit : w ++ r.rawC :: c :: todo = fed size r w ++ c :: todo := by
      rw [hfed, List.append_assoc, List.singleton_append]
    have hlen : (fed size r w).length = w.length + 1 := by
      rw [hfed, List.length_append, List.length_singleton]
    have hne : fed size r w ≠ [] := List.ne_nil_of_length_pos (by rw [hlen]; exact Nat.succ_pos _)
    obtain ⟨hwait, hforced⟩ := hbefore _ (c :: todo) hne (List.cons_ne_nil _ _) hsplit.symm
    obtain ⟨tk', store', hfeed, hholds, hlow⟩ := feed_of_wait h hne hwait hforced
    have hread := Reading.read_cons (r := { r with tk := tk', store := store', res := .again }) hstdin
    rw [List.length_cons] at hfit
    rw [hsplit] at hitem hbefore ⊢
    obtain ⟨fuel, last, before, hlast, hstore, hrest, hholds', hlow'⟩ :=
      ih (w := fed size r w) (r := { r with tk := tk', store := store', res := .again, stdin := todo ++ rest, rawC := c })
        hholds (by simp only; omega) (by omega) rfl hitem
        (fun p ys hp hys heq => by
          obtain ⟨hwait', hforced'⟩ := hbefore p ys hp hys heq
          refine ⟨hwait', fun r' hr' => ?_⟩
          have hbound := hforced' r' hr'
          simp only
          omega)
        (fed_of_room (by simp only; omega))
    refine ⟨fuel + 1, last, before, ?_, hstore, hrest, hholds', hlow'⟩
    rw [hfeed, Option.bind_some, Reading.whileAgain, if_pos rfl, hread]
    exact hlast

theorem logicalKeyOf_made (h : Made s csi store csi') (key key' : TermKeyKey) :
    logicalKeyOf (store key) = logicalKeyOf (store key') := by
  obtain ⟨htype, hsame⟩ := h.overwrites key key'
  unfold logicalKeyOf
  rw [← htype]
  cases hkind : (store key).type with
  | unicode => rw [(hsame (Or.inl hkind)).1, (hsame (Or.inl hkind)).2]
  | keysym => rw [(hsame (Or.inr hkind)).1]
  | _ => rfl

theorem made_of_item {n : ℕ} (h : s.front csi w = .item store n csi') : Made s csi store csi' := by
  obtain ⟨r, hr, hkey, rfl, -, rfl⟩ := reply_of_item h
  exact reply_made hr hkey

theorem readKey_of_not_ascii {c : Byte} (h : ¬ IsAscii c) (fuel : ℕ) (tk : TermKey) (stdin : List Byte)
    (key : TermKeyKey) : posixTerminalClassReadKey fuel tk (c :: stdin) key =
      (Reading.feed ⟨tk, stdin, c, id, .none⟩ |>.bind (Reading.whileAgain fuel)).map fun out =>
        out.map fun last => (⟨c, logicalKeyOf (last.store key)⟩, last.tk, last.stdin) := if_neg h

theorem reads_item (h : Holds s csi size [] tk) {c : Byte} (hascii : ¬ IsAscii c) {todo : List Byte}
    {n : ℕ} (hfit : todo.length + 1 ≤ size) (hitem : s.front csi (c :: todo) = .item store n csi')
    (hbefore : WaitsBefore s csi size tk.hightide (c :: todo)) (rest : List Byte) :
    ∃ tk', Reads (tk, c :: todo ++ rest) ⟨c, logicalKeyOf (store zeroKey)⟩ (tk', rest) ∧
      Holds s csi' size ((c :: todo).drop n) tk' ∧ tk'.hightide < n := by
  obtain ⟨fuel, last, before, hlast, hstore, rfl, hholds, hlow⟩ :=
    exists_last (w := []) (r := ⟨tk, todo ++ rest, c, id, .none⟩) h h.hightide (by rw [List.length_nil]; omega) rfl
      hitem hbefore
  refine ⟨last.tk, ⟨fuel, fun key => ?_⟩, hholds, hlow⟩
  rw [List.cons_append, readKey_of_not_ascii hascii, hlast, Option.map_some, Option.map_some, hstore,
    Function.comp_apply, logicalKeyOf_made (made_of_item hitem) (before key) zeroKey]

theorem reads_ascii {c : Byte} (h : IsAscii c) (tk : TermKey) (rest : List Byte) :
    Reads (tk, c :: rest) ⟨c, .ascii⟩ (tk, rest) := ⟨0, fun _ => if_pos h⟩

end Items

/-- Keys as they are typed, and the answers to them: each is a printable byte, or bytes that the TermKey makes a key
of together and waits behind until then. -/
inductive Typed (s : Settings) (size : ℕ) : TermKeyCsi → List (List Byte) → List PosixKeyinput → TermKeyCsi → Prop
  | nil (csi : TermKeyCsi) : Typed s size csi [] [] csi
  | ascii {csi csi' : TermKeyCsi} {c : Byte} {keys : List (List Byte)} {answers : List PosixKeyinput} (h : IsAscii c)
    (later : Typed s size csi keys answers csi') : Typed s size csi ([c] :: keys) (⟨c, .ascii⟩ :: answers) csi'
  | item {csi csi₁ csi' : TermKeyCsi} {c : Byte} {todo : List Byte} {store : TermKeyKey → TermKeyKey}
    {keys : List (List Byte)} {answers : List PosixKeyinput} (hascii : ¬ IsAscii c)
    (hitem : s.front csi (c :: todo) = .item store (todo.length + 1) csi₁)
    (hbefore : ∀ p ys, p ≠ [] → ys ≠ [] → p ++ ys = c :: todo → Awaited s csi p) (hfit : todo.length + 1 ≤ size / 4)
    (later : Typed s size csi₁ keys answers csi') :
    Typed s size csi ((c :: todo) :: keys) (⟨c, logicalKeyOf (store zeroKey)⟩ :: answers) csi'

theorem Typed.of_patient {s : Settings} (hs : s.Patient) {size : ℕ} {csi csi₁ csi' : TermKeyCsi} {c : Byte}
    {todo : List Byte} {store : TermKeyKey → TermKeyKey} {keys : List (List Byte)} {answers : List PosixKeyinput}
    (hascii : ¬ IsAscii c) (hitem : s.front csi (c :: todo) = .item store (todo.length + 1) csi₁)
    (hfit : todo.length + 1 ≤ size / 4) (later : Typed s size csi₁ keys answers csi') :
    Typed s size csi ((c :: todo) :: keys) (⟨c, logicalKeyOf (store zeroKey)⟩ :: answers) csi' := by
  refine .item hascii hitem (fun p ys hp hys heq => awaited_of_patient hs hp ?_) hfit later
  have hlen := congrArg List.length heq
  have hpos := List.length_pos_iff.2 hys
  rw [List.length_append, List.length_cons] at hlen
  rw [← heq] at hitem
  exact (Settings.front_sound hs).wait_of_lt hitem (by omega)

/-- Keys that are typed one after the other are read one by one, each by one call and whatever stands behind
them. -/
theorem readsAll_typed {s : Settings} {size : ℕ} {csi csi' : TermKeyCsi} {tk : TermKey}
    (h : Holds s csi size [] tk) (hlow : tk.hightide ≤ size / 4) {keys : List (List Byte)}
    {answers : List PosixKeyinput} (htyped : Typed s size csi keys answers csi') (rest : List Byte) :
    ∃ tk', ReadsAll (tk, keys.flatten ++ rest) answers (tk', rest) ∧ Holds s csi' size [] tk' := by
  induction htyped generalizing tk with
  | nil csi => exact ⟨tk, rfl, h⟩
  | ascii hascii later ih =>
    obtain ⟨tk', hreads, hholds⟩ := ih h hlow
    exact ⟨tk', ⟨_, reads_ascii hascii tk _, hreads⟩, hholds⟩
  | @item csi csi₁ csi' c todo store keys answers hascii hitem hbefore hfit later ih =>
    have hwaits : WaitsBefore s csi size tk.hightide (c :: todo) := by
      intro p ys hp hys heq
      refine ⟨hbefore p ys hp hys heq, fun r' hr' => ?_⟩
      have hle := (Settings.reply_fits hr').le (Settings.reply_force_key hp hr')
      have hlen := congrArg List.length heq
      rw [List.length_append, List.length_cons] at hlen
      omega
    obtain ⟨tk₁, hread, hholds, hlow₁⟩ := reads_item h hascii (by omega) hitem hwaits (keys.flatten ++ rest)
    have hdrop : (c :: todo).drop (todo.length + 1) = [] := List.drop_eq_nil_iff.2 le_rfl
    rw [hdrop] at hholds
    obtain ⟨tk', hreads, hholds'⟩ := ih hholds (by omega)
    rw [List.flatten_cons, List.append_assoc]
    exact ⟨tk', ⟨_, hread, hreads⟩, hholds'⟩

theorem holds_new {drivers : List Driver} {flags : BitVec 32} {fill : ℕ → Byte} {tk : TermKey}
    (hflags : ¬ HasFlag flags flagNostart) (h : termkeyNewAbstract drivers flags fill = some tk) :
    Holds tk.toSettings tk.csi 256 [] tk ∧ tk.drivers = drivers := by
  obtain ⟨hwf, hempty, hdrivers⟩ := termkeyNewAbstract_wellFormed hflags h
  unfold termkeyNewAbstract at h
  obtain ⟨keynames, -, hnew⟩ := Option.bind_eq_some_iff.1 h
  cases hnew
  exact ⟨⟨hwf, rfl, rfl, rfl, hempty, Nat.succ_pos 255⟩, hdrivers⟩

theorem readsAll_typed_arrow : ∃ tk₀ tk', termkeyNewAbstract [.csi] (flagNotermios ||| flagCtrlc) (fun _ => 0) = some tk₀ ∧
    ReadsAll (tk₀, [0x61, 0x1b, 0x5b, 0x41, 0x0d, 0x1b]) [⟨0x61, .ascii⟩, ⟨0x1b, .up⟩, ⟨0x0d, .enter⟩] (tk', [0x1b]) := by
  obtain ⟨tk₀, hnew⟩ : ∃ tk₀, termkeyNewAbstract [.csi] (flagNotermios ||| flagCtrlc) (fun _ => 0) = some tk₀ := ⟨_, rfl⟩
  obtain ⟨hholds, hdrivers⟩ := holds_new (by decide) hnew
  obtain ⟨up, hup, hupKey⟩ : ∃ store, tk₀.toSettings.front tk₀.csi [0x1b, 0x5b, 0x41] = .item store 3 tk₀.csi ∧
      logicalKeyOf (store zeroKey) = .up := by
    cases hnew
    exact ⟨_, rfl, rfl⟩
  obtain ⟨enter, henter, henterKey⟩ : ∃ store, tk₀.toSettings.front tk₀.csi [0x0d] = .item store 1 tk₀.csi ∧
      logicalKeyOf (store zeroKey) = .enter := by
    cases hnew
    exact ⟨_, rfl, rfl⟩
  have htyped : Typed tk₀.toSettings 256 tk₀.csi [[0x61], [0x1b, 0x5b, 0x41], [0x0d]]
      [⟨0x61, .ascii⟩, ⟨0x1b, logicalKeyOf (up zeroKey)⟩, ⟨0x0d, logicalKeyOf (enter zeroKey)⟩] tk₀.csi :=
    .ascii (by decide) (.of_patient (patient_csi hdrivers) (by decide) hup (by decide)
      (.of_patient (patient_csi hdrivers) (by decide) henter (by decide) (.nil _)))
  rw [hupKey, henterKey] at htyped
  have hlow : tk₀.hightide ≤ 256 / 4 := by
    cases hnew
    decide
  obtain ⟨tk', hreads, -⟩ := readsAll_typed hholds hlow htyped [0x1b]
  exact ⟨tk₀, tk', hnew, hreads⟩

section Keys
variable {s : Settings} {csi csi' : TermKeyCsi} {size : ℕ} {w : List Byte} {tk : TermKey} {r r' last : Reading}
  {store : TermKeyKey → TermKeyKey}

inductive Going (s : Settings) (r : Reading) : Prop
  | key {csi csi' : TermKeyCsi} {store before : TermKeyKey → TermKeyKey} (made : Made s csi store csi')
    (res : r.res = .key) (hstore : r.store = store ∘ before)
  | wrapped (res : r.res = .again) (start : r.tk.buffstart < 0)
  | again (res : r.res = .again) (wellFormed : r.tk.WellFormed) (settings : r.tk.toSettings = s)
    (pending : r.tk.pending ≠ [])

theorem going_feed (h : r.tk.WellFormed) (hsettings : r.tk.toSettings = s)
    (hroom : r.tk.pending ≠ [] ∨ r.tk.hightide < r.tk.buffsize) (hfeed : r.feed = some r') : Going s r' := by
  obtain ⟨⟨n, tk₁⟩, hpush, hfeed⟩ := Option.bind_eq_some_iff.1 hfeed
  obtain ⟨⟨res, tk₂, store⟩, hgot, hfeed⟩ := Option.bind_eq_some_iff.1 hfeed
  cases hfeed
  obtain ⟨took, hpushed, hne⟩ : ∃ took, r.tk.Pushed took tk₁ ∧ r.tk.pending ++ took ≠ [] := by
    have hlen := TermKey.length_pending h
    by_cases hfull : r.tk.buffsize ≤ r.tk.buffcount
    · obtain ⟨tk', hpush', happended⟩ := pushBytes_full h [r.rawC] hfull
      rw [hpush'] at hpush
      cases hpush
      refine ⟨[], happended.pushed h, ?_⟩
      rw [List.append_nil]
      refine hroom.elim id fun hlt => List.ne_nil_of_length_pos ?_
      omega
    · obtain ⟨tk', hpush', happended⟩ := pushBytes_room h [r.rawC] (not_le.1 hfull)
      rw [hpush'] at hpush
      cases hpush
      refine ⟨_, happended.pushed h, List.append_ne_nil_of_right_ne_nil _ (List.ne_nil_of_length_pos ?_)⟩
      rw [List.length_take, List.length_singleton]
      omega
  have hs₁ : tk₁.toSettings = s := hpushed.settings.trans hsettings
  rw [← hpushed.pending] at hne
  rcases getkey_result hpushed.wellFormed hne hgot with
    ⟨hres, reply, hreply, hkey, rfl⟩ | ⟨hagain, hstart | ⟨hwf, hsettings', hpending⟩⟩
  · have hmade := reply_made hreply hkey
    rw [hs₁] at hmade
    exact .key hmade hres rfl
  · exact .wrapped hagain hstart
  · exact .again hagain hwf (hsettings'.trans hs₁) hpending

theorem Going.whileAgain {fuel : ℕ} (h : Going s r) (hlast : r.whileAgain fuel = some (some last)) :
    ∃ (csi csi' : TermKeyCsi) (store before : TermKeyKey → TermKeyKey), Made s csi store csi' ∧
      last.store = store ∘ before := by
  induction fuel generalizing r with
  | zero =>
    rw [Reading.whileAgain] at hlast
    split_ifs at hlast with hres
    · cases hlast
    · obtain rfl := Option.some.inj (Option.some.inj hlast)
      cases h with
      | key made res hstore => exact ⟨_, _, _, _, made, hstore⟩
      | wrapped res => exact absurd res hres
      | again res => exact absurd res hres
  | succ fuel ih =>
    rw [Reading.whileAgain] at hlast
    split_ifs at hlast with hres
    · obtain ⟨r', hfeed, hlast⟩ := Option.bind_eq_some_iff.1 hlast
      cases h with
      | key made res =>
        rw [res] at hres
        cases hres
      | wrapped res start =>
        rw [Reading.feed, Reading.read_tk, termkeyPushBytes, TermKey.moveDown, if_pos start] at hfeed
        cases hfeed
      | again res wellFormed settings pending =>
        rw [← Reading.read_tk] at wellFormed settings pending
        exact ih (going_feed wellFormed settings (Or.inl pending) hfeed) hlast
    · obtain rfl := Option.some.inj (Option.some.inj hlast)
      cases h with
      | key made res hstore => exact ⟨_, _, _, _, made, hstore⟩
      | wrapped res => exact absurd res hres
      | again res => exact absurd res hres

theorem last_made (h : Holds s csi size w r.tk) {fuel : ℕ}
    (hlast : r.feed.bind (Reading.whileAgain fuel) = some (some last)) :
    ∃ (csi csi' : TermKeyCsi) (store before : TermKeyKey → TermKeyKey), Made s csi store csi' ∧
      last.store = store ∘ before := by
  obtain ⟨r', hfeed, hlast⟩ := Option.bind_eq_some_iff.1 hlast
  have hroom : r.tk.hightide < r.tk.buffsize := h.buffsize ▸ h.hightide
  exact (going_feed h.wellFormed h.settings (Or.inr hroom) hfeed).whileAgain hlast

theorem readKey_started (h : Holds s csi size w tk) (fuel : ℕ) (stdin : List Byte) (key key' : TermKeyKey) :
    posixTerminalClassReadKey fuel tk stdin key = posixTerminalClassReadKey fuel tk stdin key' := by
  have hstart : Holds s csi size w (Reading.read ⟨tk, stdin, 0, id, .none⟩).tk := by
    rw [Reading.read_tk]
    exact h
  unfold posixTerminalClassReadKey
  dsimp only
  split_ifs
  · rfl
  · cases hout : (Reading.read ⟨tk, stdin, 0, id, .none⟩).feed.bind (Reading.whileAgain fuel) with
    | none => rfl
    | some out =>
      cases out with
      | none => rfl
      | some last =>
        obtain ⟨csi₁, csi₂, store, before, hmade, hstore⟩ := last_made hstart hout
        have hsame := logicalKeyOf_made hmade (before key) (before key')
        simp only [Option.map_some, hstore, Function.comp_apply, hsame]

theorem pushBytes_stop (tk : TermKey) (bytes : List Byte) :
    termkeyPushBytes (termkeyStop tk) bytes = (termkeyPushBytes tk bytes).map (Prod.map id termkeyStop) := by
  have hdown : (termkeyStop tk).moveDown = tk.moveDown.map termkeyStop := by
    have hstart : (termkeyStop tk).buffstart = tk.buffstart := rfl
    rw [TermKey.moveDown, TermKey.moveDown, hstart]
    split_ifs
    · rfl
    · rfl
    · rw [Option.map_map]
      rfl
  rw [termkeyPushBytes, termkeyPushBytes, hdown]
  cases tk.moveDown with
  | none => rfl
  | some tk' =>
    simp only [Option.map_some, Option.bind_eq_bind, Option.bind_some]
    change (if tk'.buffsize ≤ tk'.buffcount then _ else _) = Option.map _ (if tk'.buffsize ≤ tk'.buffcount then _ else _)
    split_ifs
    · rfl
    · rw [Option.map_bind]
      rfl

/-- A stopped TermKey gives no key: what stands in `tk_key` at first is answered for. -/
theorem readKey_stopped (h : Holds s csi size w tk) {stdin : List Byte} (hascii : ¬ IsAscii (stdin.headD 0)) :
    ∃ tk', ∀ fuel key, posixTerminalClassReadKey fuel (termkeyStop tk) stdin key =
      some (some (⟨stdin.headD 0, logicalKeyOf key⟩, tk', stdin.tail)) := by
  have hread : Reading.read ⟨termkeyStop tk, stdin, 0, id, .none⟩ =
      ⟨termkeyStop tk, stdin.tail, stdin.headD 0, id, .none⟩ := by
    cases stdin with
    | nil => rfl
    | cons c stdin => rfl
  obtain ⟨n, tk', hpush, -⟩ := h.pushBytes (stdin.headD 0)
  have hfeed : Reading.feed ⟨termkeyStop tk, stdin.tail, stdin.headD 0, id, .none⟩ =
      some ⟨termkeyStop tk', stdin.tail, stdin.headD 0, id, .error⟩ := by
    rw [Reading.feed, pushBytes_stop, hpush]
    rfl
  refine ⟨termkeyStop tk', fun fuel key => ?_⟩
  have hend : Reading.whileAgain fuel ⟨termkeyStop tk', stdin.tail, stdin.headD 0, id, .error⟩ =
      some (some ⟨termkeyStop tk', stdin.tail, stdin.headD 0, id, .error⟩) := by
    cases fuel with
    | zero => rfl
    | succ fuel => rfl
  unfold posixTerminalClassReadKey
  rw [hread]
  dsimp only
  rw [if_neg hascii, hfeed, Option.bind_some, hend]
  rfl

/-- What stands in `tk_key` when `read_key` is called does not matter to a TermKey that is started, with any drivers
and whatever waits in it; it is all that matters to one that was stopped. -/
theorem readKey_overwrites (h : Holds s csi size w tk) :
    (∀ fuel stdin key key', posixTerminalClassReadKey fuel tk stdin key = posixTerminalClassReadKey fuel tk stdin key') ∧
    ∀ stdin, ¬ IsAscii (stdin.headD 0) → ∃ tk', ∀ fuel key,
      posixTerminalClassReadKey fuel (termkeyStop tk) stdin key =
        some (some (⟨stdin.headD 0, logicalKeyOf key⟩, tk', stdin.tail)) :=
  ⟨readKey_started h, fun _ hascii => readKey_stopped h hascii⟩

/-- A byte that is deleted with: a key of itself, and after the stop whatever stood in `tk_key`. -/
theorem readKey_overwrites_del : ∃ tk st, termkeyNewAbstract [.csi] (flagNotermios ||| flagCtrlc) (fun _ => 0) = some tk ∧
    (∀ key, posixTerminalClassReadKey 0 tk [0x7f] key = posixTerminalClassReadKey 0 tk [0x7f] zeroKey) ∧
    posixTerminalClassReadKey 0 (termkeyStop tk) [0x7f] { zeroKey with type := .keysym, code := .sym Sym.backspace.val } =
      some (some (⟨0x7f, .backspace⟩, st)) := by
  obtain ⟨tk, hnew⟩ : ∃ tk, termkeyNewAbstract [.csi] (flagNotermios ||| flagCtrlc) (fun _ => 0) = some tk := ⟨_, rfl⟩
  obtain ⟨hholds, -⟩ := holds_new (by decide) hnew
  obtain ⟨hsame, hstopped⟩ := readKey_overwrites hholds
  obtain ⟨tk', hread⟩ := hstopped [0x7f] (by decide)
  exact ⟨tk, (tk', []), hnew, fun key => hsame 0 [0x7f] key zeroKey, hread 0 _⟩

end Keys

section Backspace
variable {s : Settings} {csi csi' : TermKeyCsi} {size : ℕ} {w : List Byte} {tk : TermKey}
  {store : TermKeyKey → TermKeyKey}

def NotBackspace (key : TermKeyKey) : Prop := key.type = .keysym → key.code.asSym ≠ Sym.backspace.val

theorem termkeySymToLogicalkey_mem {sym : TermKeySym} {k : PosixLogicalKey} (h : termkeySymToLogicalkey sym = k) :
    k = .unknown ∨ (sym, k) ∈ symLogicalkeys := by
  unfold termkeySymToLogicalkey at h
  cases hfound : symLogicalkeys.lookup sym with
  | none =>
    rw [hfound] at h
    exact Or.inl h.symm
  | some k' =>
    rw [hfound, Option.getD_some] at h
    obtain ⟨l₁, l₂, hsplit, -⟩ := List.lookup_eq_some_iff.1 (h ▸ hfound)
    exact Or.inr (hsplit ▸ List.mem_append_right _ List.mem_cons_self)

theorem logicalKeyOf_ne (key : TermKeyKey) : logicalKeyOf key ≠ .invalid ∧ logicalKeyOf key ≠ .ascii ∧
    (NotBackspace key → logicalKeyOf key ≠ .backspace) := by
  have htable : ∀ e ∈ symLogicalkeys, e.2 ≠ .invalid ∧ e.2 ≠ .ascii ∧ (e.2 = .backspace → e.1 = Sym.backspace.val) := by
    decide
  have hsym : ∀ sym, termkeySymToLogicalkey sym ≠ .invalid ∧ termkeySymToLogicalkey sym ≠ .ascii ∧
      (termkeySymToLogicalkey sym = .backspace → sym = Sym.backspace.val) := by
    intro sym
    rcases termkeySymToLogicalkey_mem (Eq.refl (termkeySymToLogicalkey sym)) with hunknown | hmem
    · rw [hunknown]
      exact ⟨PosixLogicalKey.noConfusion, PosixLogicalKey.noConfusion, PosixLogicalKey.noConfusion⟩
    · exact htable _ hmem
  unfold logicalKeyOf
  cases hkind : key.type with
  | keysym =>
    obtain ⟨hinvalid, hascii, hbackspace⟩ := hsym key.code.asSym
    exact ⟨hinvalid, hascii, fun hnot heq => hnot hkind (hbackspace heq)⟩
  | unicode =>
    dsimp only
    split_ifs
    all_goals exact ⟨PosixLogicalKey.noConfusion, PosixLogicalKey.noConfusion, fun _ => PosixLogicalKey.noConfusion⟩
  | _ => exact ⟨PosixLogicalKey.noConfusion, PosixLogicalKey.noConfusion, fun _ => PosixLogicalKey.noConfusion⟩

theorem canonicalise_notBackspace {canonflags : BitVec 32} (hcanon : ¬ HasFlag canonflags canonDelbs) {key : TermKeyKey}
    (h : NotBackspace key) : NotBackspace (termkeyCanonicalise canonflags key) := by
  have hspace : (Code.sym Sym.space.val).asSym ≠ Sym.backspace.val := by decide
  unfold termkeyCanonicalise
  simp only [hcanon, false_and, if_false]
  split_ifs
  · exact fun _ => hspace
  · exact h
  · intro htype
    rw [(alike_fillUtf8 _).1] at htype
    cases htype
  · exact h

theorem codepointKey_notBackspace (hc0 : s.c0 = initC0) {codepoint : ℤ} {type : TermKeyType} {code : Code}
    {modifiers : BitVec 32} (h : codepointKey s.toInterpretation codepoint = some (type, code, modifiers)) :
    type = .keysym → code.asSym ≠ Sym.backspace.val := by
  have hc0Key : ∀ info, c0Entry s.toInterpretation codepoint = some info →
      info.sym ∈ [Sym.none.val, Sym.tab.val, Sym.enter.val, Sym.escape.val] := by
    intro info hinfo
    unfold c0Entry at hinfo
    split_ifs at hinfo
    · cases hinfo
      decide
    · cases hinfo
      rw [hc0]
      unfold initC0
      split_ifs
      all_goals decide
  intro htype
  unfold codepointKey at h
  split_ifs at h
  · cases h
    decide
  · obtain ⟨info, hinfo, hkey⟩ := Option.map_eq_some_iff.1 h
    have hmem := hc0Key info hinfo
    unfold c0Key at hkey
    split_ifs at hkey
    all_goals cases hkey
    · cases htype
    · cases htype
    · have hall : ∀ sym ∈ [Sym.none.val, Sym.tab.val, Sym.enter.val, Sym.escape.val], sym ≠ Sym.backspace.val := by decide
      exact hall _ hmem
  · cases h
    decide
  · cases h
    cases htype
  · cases h
    cases htype
  · cases h
    cases htype

theorem Made.notBackspace (hs : s.drivers = [.csi]) (hcanon : ¬ HasFlag s.canonflags canonDelbs)
    (hc0 : s.c0 = initC0) (h : Made s csi store csi') (key : TermKeyKey) : NotBackspace (store key) := by
  induction h generalizing key with
  | codepoint hemit =>
    obtain ⟨⟨type, code, modifiers⟩, hfound, rfl⟩ := Option.map_eq_some_iff.1 hemit
    obtain ⟨htype, hcode, -⟩ := alike_fillUnicode (termkeyCanonicalise s.canonflags { key with type, code, modifiers })
    unfold NotBackspace
    rw [htype, hcode]
    exact canonicalise_notBackspace hcanon (codepointKey_notBackspace hc0 hfound)
  | byte b => exact TermKeyType.noConfusion
  | info hknown modifiers =>
    rcases hknown with htable | ⟨root, hroot⟩
    · have hall : ∀ info ∈ csiInfos, info.type = .keysym → info.sym ≠ Sym.backspace.val := by decide
      exact hall _ htable
    · rw [hs, List.mem_singleton] at hroot
      cases hroot
  | report type htype hstore =>
    intro hkeysym
    rw [hstore key] at hkeysym
    rcases htype with rfl | rfl | rfl | rfl | rfl
    all_goals cases hkeysym
  | string type htype hid hstore =>
    intro hkeysym
    rw [hstore key] at hkeysym
    rcases htype with rfl | rfl
    all_goals cases hkeysym
  | modified h m ih => exact ih key
  | after h before ih => exact ih (before key)

/-- Without terminfo no key is read as backspace, and none is ever read as invalid. -/
theorem readKey_ne_backspace (hs : s.drivers = [.csi]) (hcanon : ¬ HasFlag s.canonflags canonDelbs)
    (hc0 : s.c0 = initC0) (h : Holds s csi size w tk) {fuel : ℕ} {stdin : List Byte} {key : TermKeyKey}
    {k : PosixKeyinput} {st : TermKey × List Byte}
    (hread : posixTerminalClassReadKey fuel tk stdin key = some (some (k, st))) :
    k.logicalKey ≠ .backspace ∧ k.logicalKey ≠ .invalid ∧ (k.logicalKey = .ascii ↔ IsAscii k.rawChar) := by
  have hstart : Holds s csi size w (Reading.read ⟨tk, stdin, 0, id, .none⟩).tk := by
    rw [Reading.read_tk]
    exact h
  rw [posixTerminalClassReadKey] at hread
  split_ifs at hread with hascii
  · cases hread
    exact ⟨PosixLogicalKey.noConfusion, PosixLogicalKey.noConfusion, fun _ => hascii, fun _ => rfl⟩
  · obtain ⟨out, hout, hread⟩ := Option.map_eq_some_iff.1 hread
    obtain ⟨last, rfl, heq⟩ := Option.map_eq_some_iff.1 hread
    cases heq
    obtain ⟨csi₁, csi₂, store, before, hmade, hstore⟩ := last_made hstart hout
    obtain ⟨hinvalid, hnotAscii, hbackspace⟩ := logicalKeyOf_ne (last.store key)
    rw [hstore] at hbackspace hinvalid hnotAscii ⊢
    exact ⟨hbackspace (Made.notBackspace hs hcanon hc0 hmade _), hinvalid, fun heq => absurd heq hnotAscii,
      fun h => absurd h hascii⟩

theorem readKey_ne_backspace_del : ∃ tk k st, termkeyNewAbstract [.csi] (flagNotermios ||| flagCtrlc) (fun _ => 0) = some tk ∧
    posixTerminalClassReadKey 0 tk [0x7f] zeroKey = some (some (k, st)) ∧ k.logicalKey ≠ .backspace := by
  obtain ⟨tk, hnew⟩ : ∃ tk, termkeyNewAbstract [.csi] (flagNotermios ||| flagCtrlc) (fun _ => 0) = some tk := ⟨_, rfl⟩
  obtain ⟨hholds, hdrivers⟩ := holds_new (by decide) hnew
  have hdefaults : ¬ HasFlag tk.canonflags canonDelbs ∧ tk.c0 = initC0 := by
    cases hnew
    exact ⟨by decide, rfl⟩
  obtain ⟨⟨k, st⟩, hread⟩ : ∃ out, posixTerminalClassReadKey 0 tk [0x7f] zeroKey = some (some out) := by
    have hsome : ((posixTerminalClassReadKey 0 tk [0x7f] zeroKey).bind id).isSome := by
      cases hnew
      decide +kernel
    obtain ⟨out, hout⟩ := Option.isSome_iff_exists.1 hsome
    obtain ⟨-, hread, rfl⟩ := Option.bind_eq_some_iff.1 hout
    exact ⟨out, hread⟩
  exact ⟨tk, k, st, hnew, hread, (readKey_ne_backspace hdrivers hdefaults.1 hdefaults.2 hholds hread).1⟩

end Backspace

end MutantC.PosixTerminal
