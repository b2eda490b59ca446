import MutantC.Libtermkey.TermkeyStrings
import MutantC.Libtermkey.TermkeyText
import MutantC.PosixTerminal.ReadKey

/-! What `read_key` makes of input that the TermKey waits too long behind, or leaves a byte of: a control string
that is not ended in time is never returned from, and a byte that was left is answered for in the place of a
later key. -/

namespace MutantC.PosixTerminal
open CBuffer Libtermkey StreamDecoder

/-- The call does not return: it goes on after any number of rounds. -/
def Endless (tk : TermKey) (stdin : List Byte) : Prop :=
  ∀ fuel key, posixTerminalClassReadKey fuel tk stdin key = some none

section Split
variable {w text : List Byte} {n m : ℕ}

theorem splitString_take (h : splitString w = some (text, n)) :
    splitString (w.take (text.length + n)) = some (text, n) := by
  induction w generalizing text with
  | nil => cases h
  | cons b w ih =>
    rw [splitString] at h
    split_ifs at h with hst hesc
    · cases h
      rw [List.length_nil, Nat.zero_add, List.take_succ_cons, List.take_zero, splitString, if_pos hst]
    · cases h
      cases w with
      | nil => cases hesc.2
      | cons c w =>
        rw [List.length_nil, Nat.zero_add, List.take_succ_cons, splitString, if_neg hst]
        exact if_pos ⟨hesc.1, hesc.2⟩
    · obtain ⟨⟨text', n'⟩, hsplit, heq⟩ := Option.map_eq_some_iff.1 h
      cases heq
      have hno : ¬ (b = 0x1b ∧ (w.take (text'.length + n)).head? = some 0x5c) := by
        rintro ⟨hb, hhead⟩
        rw [List.head?_take] at hhead
        split_ifs at hhead
        exact hesc ⟨hb, hhead⟩
      rw [List.length_cons, Nat.add_right_comm, List.take_succ_cons, splitString, if_neg hst, if_neg hno, ih hsplit]
      rfl

theorem splitString_take_lt (h : splitString w = some (text, n)) (hm : m < text.length + n) :
    splitString (w.take m) = none := by
  cases hsplit : splitString (w.take m) with
  | none => rfl
  | some out =>
    obtain ⟨text', n'⟩ := out
    have hle := (length_splitString hsplit).1
    have hlater := splitString_append (w.drop m) hsplit
    rw [List.take_append_drop, h] at hlater
    cases hlater
    rw [List.length_take] at hle
    omega

theorem splitString_prefix {c : List Byte} (h : splitString (w ++ c) = none) : splitString w = none := by
  cases hsplit : splitString w with
  | none => rfl
  | some out =>
    rw [splitString_append c hsplit] at h
    cases h

theorem splitString_again {b : Byte} (h : splitString w = none) (hlast : w.getLast? = some b) :
    splitString (w ++ [b]) = none := by
  induction w with
  | nil => cases hlast
  | cons c w ih =>
    rw [splitString] at h
    split_ifs at h with hst hesc
    rw [Option.map_eq_none_iff] at h
    have hno : ¬ (c = 0x1b ∧ (w ++ [b]).head? = some 0x5c) := by
      rintro ⟨rfl, hhead⟩
      cases w with
      | nil =>
        obtain rfl : 0x1b = b := Option.some.inj hlast
        cases hhead
      | cons d w => exact hesc ⟨rfl, hhead⟩
    rw [List.cons_append, splitString, if_neg hst, if_neg hno, Option.map_eq_none_iff]
    cases w with
    | nil =>
      obtain rfl : c = b := Option.some.inj hlast
      rw [List.nil_append, splitString, if_neg hst, if_neg fun hesc => by cases hesc.2]
      rfl
    | cons d w => exact ih h hlast

end Split

section Strings
variable {s : Settings} {csi : TermKeyCsi} {intro w : List Byte} {r : Reply}

theorem length_intro (h : IsStringIntro intro) : 1 ≤ intro.length ∧ intro.length ≤ 2 := by
  rcases h with rfl | rfl | rfl | rfl
  all_goals exact ⟨by decide, by decide⟩

theorem reply_of_again (hs : s.drivers = [.csi]) (hpeek : ∀ force, csiPeekkey s.toInterpretation csi w force =
    some (.undecided .again id csi)) : s.reply csi false w = some (.undecided .again id csi) ∧
      s.reply csi true w = s.simple csi true (s.reply csi true) w := by
  constructor
  · rw [Settings.reply_eq, hs, tryDrivers, Driver.peekkey, hpeek]
    rfl
  · rw [Settings.reply_eq, hs, tryDrivers, Driver.peekkey, hpeek]
    exact Option.map_id'

theorem csiPeekkey_string_none (csi : TermKeyCsi) (hintro : IsStringIntro intro) (hnone : splitString w = none) (force : Bool) :
    csiPeekkey s.toInterpretation csi (intro ++ w) force = some (.undecided .again id csi) := by
  have hdriver : csiPeekkey s.toInterpretation csi (intro ++ w) force =
      peekkeyCtrlstring csi (intro ++ w) intro.length := by
    rcases hintro with rfl | rfl | rfl | rfl
    all_goals rfl
  rw [hdriver, peekkeyCtrlstring, List.drop_left, hnone]

theorem leaves_csi (hs : s.drivers = [.csi]) (b : Byte) : s.Leaves b := by
  intro root hroot
  rw [hs, List.mem_singleton] at hroot
  cases hroot

theorem forced_byte (hs : s.drivers = [.csi]) {b : Byte} (hb : ¬ Introducer b) (hlow : b < 0xa0)
    (h : s.reply csi true (b :: w) = some r) : r.nbytes = 1 := by
  have hesc : b ≠ 0x1b := fun heq => hb (Or.inl heq)
  rw [reply_leaves hb (leaves_csi hs b), simpleReply, if_neg fun h => hesc h.1, if_pos hlow] at h
  obtain ⟨emit, -, rfl⟩ := Option.map_eq_some_iff.1 h
  rfl

theorem reply_string_none (csi : TermKeyCsi) (hs : s.drivers = [.csi]) (hintro : IsStringIntro intro) (hnone : splitString w = none) :
    Awaited s csi (intro ++ w) ∧ ∀ r, s.reply csi true (intro ++ w) = some r → r.nbytes ≤ 2 := by
  obtain ⟨hwait, hforced⟩ := reply_of_again hs (csiPeekkey_string_none (s := s) csi hintro hnone)
  have hne : intro ++ w ≠ [] := List.append_ne_nil_of_left_ne_nil (List.ne_nil_of_length_pos (length_intro hintro).1) w
  refine ⟨awaited_of_patient (patient_csi hs) hne (front_wait hwait TermKeyResult.noConfusion), fun r hr => ?_⟩
  rw [hforced] at hr
  have hsimple : ∀ b : Byte, b = 0x90 ∨ b = 0x9d → s.simple csi true (s.reply csi true) (b :: w) = some r →
      r.nbytes ≤ 2 := by
    intro b hb hr
    have hesc : b ≠ 0x1b ∧ b < 0xa0 := by
      rcases hb with rfl | rfl
      · exact ⟨by decide, by decide⟩
      · exact ⟨by decide, by decide⟩
    rw [Settings.simple_of_head hesc.1, simpleReply, if_neg fun h => hesc.1 h.1, if_pos hesc.2] at hr
    obtain ⟨emit, -, rfl⟩ := Option.map_eq_some_iff.1 hr
    exact Nat.le_succ 1
  have hescaped : ∀ b : Byte, b = 0x50 ∨ b = 0x5d → s.simple csi true (s.reply csi true) (0x1b :: b :: w) = some r →
      r.nbytes ≤ 2 := by
    intro b hb hr
    have hbyte : ¬ Introducer b ∧ b < 0xa0 := by
      rcases hb with rfl | rfl
      · exact ⟨by decide, by decide⟩
      · exact ⟨by decide, by decide⟩
    obtain ⟨nested, hnested, rfl⟩ := Option.map_eq_some_iff.1 hr
    have hone := forced_byte hs hbyte.1 hbyte.2 hnested
    unfold Reply.escaped
    split_ifs
    · exact (congrArg (· + 1) hone).le
    · rw [hone]
      exact Nat.le_succ 1
  rcases hintro with rfl | rfl | rfl | rfl
  · exact hescaped 0x50 (Or.inl rfl) hr
  · exact hescaped 0x5d (Or.inr rfl) hr
  · exact hsimple 0x90 (Or.inl rfl) hr
  · exact hsimple 0x9d (Or.inr rfl) hr

theorem reply_escape (csi : TermKeyCsi) (hs : s.drivers = [.csi]) :
    Awaited s csi [0x1b] ∧ ∀ r, s.reply csi true [0x1b] = some r → r.nbytes ≤ 2 := by
  have hreply : ∀ force, s.reply csi force [0x1b] = simpleReply s.toInterpretation csi [0x1b] force := by
    intro force
    rw [Settings.reply_eq, hs]
    exact Option.map_id'
  constructor
  · exact awaited_of_patient (patient_csi hs) (List.cons_ne_nil _ _)
      (front_wait ((hreply false).trans rfl) TermKeyResult.noConfusion)
  · intro r hr
    rw [hreply, simpleReply] at hr
    obtain ⟨emit, -, rfl⟩ := Option.map_eq_some_iff.1 hr
    exact Nat.le_succ 1

end Strings

section Swallowing
variable {s : Settings} {csi : TermKeyCsi} {size : ℕ} {intro : List Byte} {tk : TermKey} {r : Reading}

/-- The loop of `read_key` inside of a control string: `seen` are the bytes that were read of it, of which the
TermKey took what it had room for, and no terminator is among them or among those to come. -/
structure Swallowing (s : Settings) (csi : TermKeyCsi) (size : ℕ) (intro seen : List Byte) (r : Reading) : Prop where
  holds : Holds s csi size (intro ++ seen.take (size - intro.length)) r.tk
  hightide : r.tk.hightide = 0
  last : (intro ++ seen).getLast? = some r.rawC
  unended : splitString ((seen ++ r.stdin).take (size - intro.length)) = none
  res : r.res = .again

theorem Swallowing.read {seen : List Byte} (hintro : IsStringIntro intro) (h : Swallowing s csi size intro seen r) :
    splitString ((seen ++ [r.read.rawC] ++ r.read.stdin).take (size - intro.length)) = none ∧
      (intro ++ (seen ++ [r.read.rawC])).getLast? = some r.read.rawC := by
  have hlast : ∀ c : Byte, (intro ++ (seen ++ [c])).getLast? = some c := by
    intro c
    rw [← List.append_assoc, List.getLast?_append, List.getLast?_singleton]
    rfl
  refine ⟨?_, hlast _⟩
  cases hstdin : r.stdin with
  | cons c stdin =>
    rw [Reading.read_cons hstdin, List.append_assoc, List.singleton_append, ← hstdin]
    exact h.unended
  | nil =>
    have hread : r.read = r := by rw [Reading.read, hstdin]
    have hunended := h.unended
    rw [hstdin, List.append_nil] at hunended
    rw [hread, hstdin, List.append_nil]
    by_cases hfull : size - intro.length ≤ seen.length
    · rw [List.take_append_of_le_length hfull]
      exact hunended
    · rw [List.take_of_length_le (by omega)] at hunended
      rw [List.take_of_length_le (by rw [List.length_append, List.length_singleton]; omega)]
      by_cases hseen : seen = []
      · have hraw := h.last
        rw [hseen, List.append_nil] at hraw
        rw [hseen, List.nil_append]
        generalize r.rawC = b at hraw ⊢
        rcases hintro with rfl | rfl | rfl | rfl
        all_goals
          cases hraw
          rfl
      · have hraw := h.last
        rw [List.getLast?_append_of_ne_nil _ hseen] at hraw
        exact splitString_again hunended hraw

theorem Swallowing.feed (hs : s.drivers = [.csi]) (hsize : 8 ≤ size) (hintro : IsStringIntro intro) {seen : List Byte}
    (h : Swallowing s csi size intro seen r) :
    ∃ r', r.read.feed = some r' ∧ Swallowing s csi size intro (seen ++ [r.read.rawC]) r' := by
  obtain ⟨hunended, hlast⟩ := h.read hintro
  have hlen := length_intro hintro
  have htake : splitString ((seen ++ [r.read.rawC]).take (size - intro.length)) = none := by
    rw [List.take_append] at hunended
    exact splitString_prefix hunended
  have hholds : Holds s csi size (intro ++ seen.take (size - intro.length)) r.read.tk := by
    rw [Reading.read_tk]
    exact h.holds
  have hhightide : r.read.tk.hightide = 0 := by
    rw [Reading.read_tk]
    exact h.hightide
  have hfed : fed size r.read (intro ++ seen.take (size - intro.length)) =
      intro ++ (seen ++ [r.read.rawC]).take (size - intro.length) := by
    have hroom : size - (0 + (intro.length + min (size - intro.length) seen.length)) =
        size - intro.length - seen.length := by omega
    rw [fed, hhightide, List.length_append, List.length_take, hroom, List.append_assoc, ← List.take_append]
  obtain ⟨hwait, hforced⟩ := reply_string_none csi hs hintro htake
  have hne : intro ++ (seen ++ [r.read.rawC]).take (size - intro.length) ≠ [] :=
    List.append_ne_nil_of_left_ne_nil (List.ne_nil_of_length_pos hlen.1) _
  rw [← hfed] at hwait hforced hne
  obtain ⟨tk', store, hfeed, hholds', hhightide'⟩ := feed_of_wait hholds hne hwait fun r' hr' => by
    have hle := hforced r' hr'
    omega
  rw [hfed] at hholds'
  exact ⟨_, hfeed, hholds', hhightide', hlast, hunended, rfl⟩

theorem Swallowing.endless (hs : s.drivers = [.csi]) (hsize : 8 ≤ size) (hintro : IsStringIntro intro) (fuel : ℕ)
    {seen : List Byte} (h : Swallowing s csi size intro seen r) : r.whileAgain fuel = some none := by
  induction fuel generalizing r seen with
  | zero => exact if_pos h.res
  | succ fuel ih =>
    obtain ⟨r', hfeed, hr'⟩ := h.feed hs hsize hintro
    rw [Reading.whileAgain, if_pos h.res, hfeed, Option.bind_some]
    exact ih hr'

theorem not_isAscii_intro (h : IsStringIntro intro) : ∃ c todo, intro = c :: todo ∧ ¬ IsAscii c := by
  rcases h with rfl | rfl | rfl | rfl
  all_goals exact ⟨_, _, rfl, by decide⟩

/-- A control string without a terminator in what the buffer has room for holds `read_key` for good, at the end of
the input too. -/
theorem endless_string (hs : s.drivers = [.csi]) (h : Holds s csi size [] tk) (hlow : tk.hightide ≤ size / 4)
    (hsize : 8 ≤ size) (hintro : IsStringIntro intro) {rest : List Byte}
    (hnone : splitString (rest.take (size - intro.length)) = none) : Endless tk (intro ++ rest) := by
  -- the first byte is fed outside of the loop, the second one of an introducer of two bytes in its first round
  have hstart : ∀ {r : Reading} {w : List Byte}, Holds s csi size w r.tk → r.tk.hightide + w.length < size →
      r.tk.hightide ≤ size / 4 → (intro = w ++ [r.rawC]) → r.stdin = rest → ∀ fuel,
      r.feed.bind (Reading.whileAgain fuel) = some none := by
    intro r w hholds hroom hbelow hlast hstdin fuel
    have hfed : fed size r w = intro := by rw [fed_of_room hroom, ← hlast]
    have hne : fed size r w ≠ [] := hfed ▸ List.ne_nil_of_length_pos (length_intro hintro).1
    obtain ⟨hwait, hforced⟩ := reply_string_none (w := []) csi hs hintro rfl
    rw [List.append_nil, ← hfed] at hwait hforced
    obtain ⟨tk', store, hfeed, hholds', hhightide⟩ := feed_of_wait hholds hne hwait fun r' hr' => by
      have hle := hforced r' hr'
      omega
    have hswallowing : Swallowing s csi size intro [] { r with tk := tk', store := store, res := .again } := by
      refine ⟨?_, hhightide, ?_, ?_, rfl⟩
      · rw [List.take_nil, List.append_nil, ← hfed]
        exact hholds'
      · rw [List.append_nil, hlast, List.getLast?_append, List.getLast?_singleton]
        rfl
      · rw [List.nil_append, hstdin]
        exact hnone
    rw [hfeed, Option.bind_some]
    exact hswallowing.endless hs hsize hintro fuel
  have hescape : ∀ b : Byte, intro = [0x1b, b] → Endless tk (intro ++ rest) := by
    rintro b rfl fuel key
    have hfed : fed size ⟨tk, b :: rest, 0x1b, id, .none⟩ [] = [0x1b] := fed_of_room h.hightide
    obtain ⟨hwait, hforced⟩ := reply_escape csi hs
    rw [← hfed] at hwait hforced
    obtain ⟨tk', store, hfeed, hholds, hhightide⟩ :=
      feed_of_wait (r := ⟨tk, b :: rest, 0x1b, id, .none⟩) h (by rw [hfed]; exact List.cons_ne_nil _ _)
        hwait fun r' hr' => by
          have hle := hforced r' hr'
          simp only
          omega
    rw [List.cons_append, readKey_of_not_ascii (by decide), List.singleton_append, hfeed, Option.bind_some]
    cases fuel with
    | zero => rfl
    | succ fuel =>
      rw [hfed] at hholds
      have hloop := hstart (r := ⟨tk', rest, b, store, .again⟩) hholds (by rw [List.length_singleton]; simp only; omega)
        (by simp only; omega) rfl rfl fuel
      rw [Reading.whileAgain, if_pos rfl, Reading.read_cons rfl, hloop]
      rfl
  have hbyte : ∀ b : Byte, intro = [b] → ¬ IsAscii b → Endless tk (intro ++ rest) := by
    rintro b rfl hascii fuel key
    have hloop := hstart (r := ⟨tk, rest, b, id, .none⟩) h h.hightide hlow rfl rfl fuel
    rw [List.singleton_append, readKey_of_not_ascii hascii, hloop]
    rfl
  rcases hintro with rfl | rfl | rfl | rfl
  · exact hescape 0x50 rfl
  · exact hescape 0x5d rfl
  · exact hbyte 0x90 rfl (by decide)
  · exact hbyte 0x9d rfl (by decide)

theorem reads_string (hs : s.drivers = [.csi]) (h : Holds s csi size [] tk) (hlow : tk.hightide ≤ size / 4)
    (hsize : 8 ≤ size) (hintro : IsStringIntro intro) {rest text : List Byte} {n : ℕ}
    (hsplit : splitString rest = some (text, n)) (hfit : intro.length + text.length + n ≤ size) :
    ∃ tk' csi', Reads (tk, intro ++ rest) ⟨intro.headD 0, .unknown⟩ (tk', rest.drop (text.length + n)) ∧
      Holds s csi' size [] tk' := by
  obtain ⟨c, todo, hcons, hascii⟩ := not_isAscii_intro hintro
  have hlen : (rest.take (text.length + n)).length = text.length + n := by
    rw [List.length_take, Nat.min_eq_left (length_splitString hsplit).1]
  have hwhole : c :: (todo ++ rest.take (text.length + n)) = intro ++ rest.take (text.length + n) := by
    rw [hcons, List.cons_append]
  obtain ⟨store, hpeek, hstring⟩ := csiPeekkey_string (s := s) csi hintro (splitString_take hsplit)
  have hitem : s.front csi (intro ++ rest.take (text.length + n)) = .item store (intro.length + text.length + n)
      ⟨csi.savedStringId + 1, some (savedBlock text)⟩ := front_item (reply_of_csi (.alone hs) hpeek rfl) rfl
  have hbefore : WaitsBefore s csi size tk.hightide (c :: (todo ++ rest.take (text.length + n))) := by
    rw [hwhole]
    intro p ys hp hys heq
    obtain ⟨hwait, hforced⟩ : Awaited s csi p ∧ ∀ r, s.reply csi true p = some r → r.nbytes ≤ 2 := by
      by_cases hshort : p.length < intro.length
      · have hone : p = [0x1b] := by
          have hpre : p = intro.take p.length := by
            rw [← List.take_append_of_le_length hshort.le, ← heq, List.take_left]
          have hpos := List.length_pos_iff.2 hp
          have hle := (length_intro hintro).2
          have hp1 : p.length = 1 := by omega
          rw [hp1] at hpre
          rcases hintro with rfl | rfl | rfl | rfl
          · exact hpre
          · exact hpre
          all_goals exact absurd hshort (by rw [hp1]; decide)
        rw [hone]
        exact reply_escape csi hs
      · obtain ⟨t, ht⟩ : ∃ t, p = intro ++ t := by
          refine ⟨p.drop intro.length, ?_⟩
          have hpre : p.take intro.length = intro := by
            rw [← List.take_append_of_le_length (not_lt.1 hshort), heq, List.take_left]
          rw [← List.take_append_drop intro.length p, hpre, List.drop_left]
        rw [ht, List.append_assoc, List.append_cancel_left_eq] at heq
        have hpos := List.length_pos_iff.2 hys
        have hcut := congrArg List.length heq
        rw [List.length_append, hlen] at hcut
        have hnone := splitString_take_lt (m := t.length) hsplit (by omega)
        have htake : rest.take t.length = t := by
          have hpre := congrArg (List.take t.length) heq
          rw [List.take_left, List.take_take, Nat.min_eq_left (by omega)] at hpre
          exact hpre.symm
        rw [ht]
        exact reply_string_none csi hs hintro (htake ▸ hnone)
    refine ⟨hwait, fun r' hr' => ?_⟩
    have hle := hforced r' hr'
    omega
  rw [← hwhole] at hitem
  have htodo : (todo ++ rest.take (text.length + n)).length + 1 = intro.length + text.length + n := by
    rw [hcons, List.length_append, hlen, List.length_cons]
    omega
  obtain ⟨tk', hreads, hholds, -⟩ :=
    reads_item h hascii (htodo ▸ hfit) hitem hbefore (rest.drop (text.length + n))
  have hall : c :: (todo ++ rest.take (text.length + n)) ++ rest.drop (text.length + n) = intro ++ rest := by
    rw [hwhole, List.append_assoc, List.take_append_drop]
  have hunknown : logicalKeyOf (store zeroKey) = .unknown := by
    unfold logicalKeyOf
    rcases (hstring zeroKey).1 with htype | htype
    · rw [htype]
    · rw [htype]
  have hdrop : (c :: (todo ++ rest.take (text.length + n))).drop (intro.length + text.length + n) = [] :=
    List.drop_eq_nil_iff.2 (by rw [List.length_cons, htodo])
  rw [hall, hunknown] at hreads
  refine ⟨tk', _, ?_, hdrop ▸ hholds⟩
  rw [hcons]
  rw [hcons] at hreads
  exact hreads

/-- A control string holds `read_key` until it is ended: where a terminator comes in what the buffer has room for,
the string is read as a whole, and otherwise the call never returns. -/
theorem readKey_string (hs : s.drivers = [.csi]) (h : Holds s csi size [] tk) (hlow : tk.hightide ≤ size / 4)
    (hsize : 8 ≤ size) (hintro : IsStringIntro intro) (rest : List Byte) :
    (∀ text n, splitString rest = some (text, n) → intro.length + text.length + n ≤ size → ∃ tk' csi',
      Reads (tk, intro ++ rest) ⟨intro.headD 0, .unknown⟩ (tk', rest.drop (text.length + n)) ∧
        Holds s csi' size [] tk') ∧
    ((∀ text n, splitString rest = some (text, n) → size < intro.length + text.length + n) →
      Endless tk (intro ++ rest)) := by
  refine ⟨fun text n hsplit hfit => reads_string hs h hlow hsize hintro hsplit hfit, fun hlate => ?_⟩
  apply endless_string hs h hlow hsize hintro
  cases hsplit : splitString rest with
  | none =>
    rw [← List.take_append_drop (size - intro.length) rest] at hsplit
    exact splitString_prefix hsplit
  | some out =>
    obtain ⟨text, n⟩ := out
    have hlt := hlate text n hsplit
    have hlen := length_intro hintro
    exact splitString_take_lt hsplit (by omega)

/-- Alt-P, after which nothing is answered any more. -/
theorem readKey_string_altP : ∃ tk, termkeyNewAbstract [.csi] (flagNotermios ||| flagCtrlc) (fun _ => 0) = some tk ∧
    Endless tk [0x1b, 0x50, 0x61, 0x0d, 0x03] := by
  obtain ⟨tk, hnew⟩ : ∃ tk, termkeyNewAbstract [.csi] (flagNotermios ||| flagCtrlc) (fun _ => 0) = some tk := ⟨_, rfl⟩
  obtain ⟨hholds, hdrivers⟩ := holds_new (by decide) hnew
  have hlow : tk.hightide ≤ 256 / 4 := by
    cases hnew
    decide
  refine ⟨tk, hnew, (readKey_string hdrivers hholds hlow (by decide) (Or.inl rfl) [0x61, 0x0d, 0x03]).2 ?_⟩
  intro text n hsplit
  cases hsplit

end Swallowing

section Overtaken
variable {s : Settings} {csi : TermKeyCsi} {size : ℕ} {tk : TermKey} {x : Byte}

def byteKey (s : Interpretation) (b : Byte) : PosixLogicalKey :=
  match simpleReply s ⟨0, none⟩ [b] true with
  | some r => logicalKeyOf (r.store zeroKey)
  | none => .unknown

theorem byteKey_eq (b : Byte) : byteKey (termkeySetFlags ⟨0, 0, false, initC0⟩ (flagNotermios ||| flagCtrlc)) b =
    if b = 0x03 then .ctrlC else if b = 0x09 then .tab else if b = 0x0c then .ctrlL else if b = 0x0d then .enter
    else if b = 0x7f then .del else .unknown := by
  have hall : ∀ n < 256, byteKey (termkeySetFlags ⟨0, 0, false, initC0⟩ (flagNotermios ||| flagCtrlc)) (UInt8.ofNat n) =
      if UInt8.ofNat n = 0x03 then .ctrlC else if UInt8.ofNat n = 0x09 then .tab
      else if UInt8.ofNat n = 0x0c then .ctrlL else if UInt8.ofNat n = 0x0d then .enter
      else if UInt8.ofNat n = 0x7f then .del else .unknown := by decide +kernel
  have hb := hall b.toNat b.toNat_lt
  rwa [UInt8.ofNat_toNat] at hb

/-- The answers to bytes that are typed while the byte `x` still waits in the TermKey: a printable one overtakes
it, and any other one is answered for with the key that waits, and waits in its place. -/
def lagged (s : Interpretation) : Byte → List Byte → List PosixKeyinput
  | _, [] => []
  | x, c :: typed =>
    if IsAscii c then ⟨c, .ascii⟩ :: lagged s x typed else ⟨c, byteKey s x⟩ :: lagged s c typed

def Ss3Unknown (s : Interpretation) (x : Byte) : Prop :=
  (x < 0x40 ∨ 0x80 ≤ x) ∨ ((csiSs3s x).sym = symUnknown ∧ ¬ (HasFlag s.flags flagConvertkp ∧ ss3Kpalts x ≠ 0) ∧
    (ss3s x).sym = symUnknown)

theorem reply_byte (hs : s.drivers = [.csi]) (hutf8 : ¬ HasFlag s.flags flagUtf8) (hx : ¬ Introducer x) :
    ∃ store, (∀ csi force w, s.reply csi force (x :: w) = some (.found store 1 csi)) ∧
      logicalKeyOf (store zeroKey) = byteKey s.toInterpretation x := by
  have hesc : x ≠ 0x1b := fun heq => hx (Or.inl heq)
  obtain ⟨store, hstore⟩ : ∃ store, ∀ csi force w,
      simpleReply s.toInterpretation csi (x :: w) force = some (.found store 1 csi) := by
    by_cases hlow : x < 0xa0
    · obtain ⟨emit, hemit⟩ := emitCodepoint_isSome s.toInterpretation (Int.natCast_nonneg x.toNat)
      refine ⟨emit, fun csi force w => ?_⟩
      rw [simpleReply, if_neg fun h => hesc h.1, if_pos hlow, hemit]
      rfl
    · refine ⟨fun key => storeUtf8 [x] { key with type := .unicode, code := .codepoint x.toNat, modifiers := 0 },
        fun csi force w => ?_⟩
      rw [simpleReply, if_neg fun h => hesc h.1, if_neg hlow, if_neg hutf8]
  refine ⟨store, fun csi force w => (reply_leaves hx (leaves_csi hs x)).trans (hstore csi force w), ?_⟩
  rw [byteKey, hstore]
  rfl

theorem reads_ss3 (hs : s.drivers = [.csi]) (h : Holds s csi size [] tk) (hlow : tk.hightide ≤ size / 4)
    (hsize : 8 ≤ size) (hx : Ss3Unknown s.toInterpretation x) (rest : List Byte) :
    ∃ tk', Reads (tk, 0x1b :: 0x4f :: x :: rest) ⟨0x1b, .unknown⟩ (tk', rest) ∧ Holds s csi size [x] tk' ∧
      tk'.hightide < 2 := by
  have hpeek : csiPeekkey s.toInterpretation csi [0x1b, 0x4f, x] false = some (.undecided .none
      (if x < 0x40 ∨ 0x80 ≤ x then id else (ss3s x).store 0) csi) := by
    change peekkeySs3 s.toInterpretation csi [0x1b, 0x4f, x] 2 false = _
    unfold peekkeySs3
    dsimp only [List.getElem?_cons_succ, List.getElem?_cons_zero]
    rcases hx with hrange | ⟨hfull, halt, hss3⟩
    · rw [if_pos hrange, if_pos hrange]
    · by_cases hrange : x < 0x40 ∨ 0x80 ≤ x
      · rw [if_pos hrange, if_pos hrange]
      · rw [if_neg hrange, if_neg hrange, if_neg (not_not.2 hfull), if_neg halt, if_neg (not_not.2 hss3)]
  obtain ⟨emit, hemit⟩ := emitCodepoint_isSome s.toInterpretation (show (0 : ℤ) ≤ (0x4f : Byte).toNat by decide)
  have hnested : s.reply csi false [0x4f, x] = some (.found emit 1 csi) := by
    rw [reply_leaves (by decide) (leaves_csi hs _), simpleReply, if_neg (by decide), if_pos (by decide), hemit]
    rfl
  have hitem : s.front csi [0x1b, 0x4f, x] = .item
      ((addModifiers keymodAlt ∘ emit) ∘ (if x < 0x40 ∨ 0x80 ≤ x then id else (ss3s x).store 0)) 2 csi := by
    have hreply : s.reply csi false [0x1b, 0x4f, x] = some (.found
        ((addModifiers keymodAlt ∘ emit) ∘ (if x < 0x40 ∨ 0x80 ≤ x then id else (ss3s x).store 0)) 2 csi) := by
      rw [Settings.reply_eq, hs, tryDrivers, Driver.peekkey, hpeek]
      change (((s.reply csi false [0x4f, x]).map Reply.escaped).map fun r => _) = _
      rw [hnested]
      rfl
    exact front_item hreply rfl
  have hunknown : ∀ key, logicalKeyOf (addModifiers keymodAlt (emit key)) = .unknown := by
    intro key
    rw [emitCodepoint_printable ⟨Or.inl (by decide), fun heq => absurd heq (by decide)⟩ hemit]
    rfl
  have hbefore : WaitsBefore s csi size tk.hightide [0x1b, 0x4f, x] := by
    have hforced : ∀ p : List Byte, p ≠ [] → p.length ≤ 2 → ∀ r', s.reply csi true p = some r' →
        tk.hightide + r'.nbytes ≤ size / 2 := by
      intro p hp hlen r' hr'
      have hle := (Settings.reply_fits hr').le (Settings.reply_force_key hp hr')
      omega
    intro p ys hp hys heq
    obtain ⟨b, p, rfl⟩ := List.exists_cons_of_ne_nil hp
    rw [List.cons_append, List.cons.injEq] at heq
    obtain ⟨rfl, heq⟩ := heq
    cases p with
    | nil => exact ⟨(reply_escape csi hs).1, hforced _ hp (by simp)⟩
    | cons b p =>
      rw [List.cons_append, List.cons.injEq] at heq
      obtain ⟨rfl, heq⟩ := heq
      cases p with
      | nil =>
        have hreply : s.reply csi false [0x1b, 0x4f] = some (.undecided .again id csi) := by
          rw [Settings.reply_eq, hs]
          rfl
        exact ⟨awaited_of_patient (patient_csi hs) hp (front_wait hreply TermKeyResult.noConfusion),
          hforced _ hp (by simp)⟩
      | cons b p =>
        rw [List.cons_append, List.cons.injEq, List.append_eq_nil_iff] at heq
        exact absurd heq.2.2 hys
  obtain ⟨tk', hreads, hholds, hbelow⟩ := reads_item h (by decide) (by simp; omega) hitem hbefore rest
  refine ⟨tk', ?_, hholds, hbelow⟩
  rw [Function.comp_apply, Function.comp_apply, hunknown] at hreads
  exact hreads

theorem reads_behind (hs : s.drivers = [.csi]) (hutf8 : ¬ HasFlag s.flags flagUtf8) (h : Holds s csi size [x] tk)
    (hroom : tk.hightide + 1 < size) (hx : ¬ Introducer x) {c : Byte} (hascii : ¬ IsAscii c) (rest : List Byte) :
    ∃ tk', Reads (tk, c :: rest) ⟨c, byteKey s.toInterpretation x⟩ (tk', rest) ∧ Holds s csi size [c] tk' ∧
      tk'.hightide = 0 := by
  obtain ⟨store, hreply, hkey⟩ := reply_byte hs hutf8 hx
  have hfed : fed size ⟨tk, rest, c, id, .none⟩ [x] = [x, c] := fed_of_room hroom
  have hitem : s.front csi (fed size ⟨tk, rest, c, id, .none⟩ [x]) = .item store 1 csi := by
    rw [hfed]
    exact front_item (hreply csi false [c]) rfl
  obtain ⟨tk', hfeed, hholds, hlow⟩ := feed_of_item (r := ⟨tk, rest, c, id, .none⟩) h hitem
  rw [hfed] at hholds
  refine ⟨tk', ⟨0, fun key => ?_⟩, hholds, Nat.lt_one_iff.1 hlow⟩
  rw [readKey_of_not_ascii hascii, hfeed, ← hkey, ← logicalKeyOf_made (made_of_item hitem) key]
  rfl

/-- While one byte waits, the answers lag behind by one key, and keep doing so. -/
theorem readsAll_lagged (hs : s.drivers = [.csi]) (hutf8 : ¬ HasFlag s.flags flagUtf8) (h : Holds s csi size [x] tk)
    (hroom : tk.hightide + 1 < size) (hx : ¬ Introducer x) {typed : List Byte} (htyped : ∀ c ∈ typed, ¬ Introducer c)
    (rest : List Byte) : ∃ tk', ReadsAll (tk, typed ++ rest) (lagged s.toInterpretation x typed) (tk', rest) ∧
      Holds s csi size [(typed.filter fun c => ¬ IsAscii c).getLastD x] tk' := by
  induction typed generalizing x tk with
  | nil => exact ⟨tk, rfl, h⟩
  | cons c typed ih =>
    obtain ⟨hc, htyped⟩ := List.forall_mem_cons.1 htyped
    rw [lagged]
    by_cases hascii : IsAscii c
    · obtain ⟨tk', hreads, hholds⟩ := ih h hroom hx htyped
      rw [if_pos hascii, List.filter_cons_of_neg (by simpa using hascii)]
      exact ⟨tk', ⟨_, reads_ascii hascii tk _, hreads⟩, hholds⟩
    · obtain ⟨tk₁, hread, hholds₁, hlow⟩ := reads_behind hs hutf8 h hroom hx hascii (typed ++ rest)
      obtain ⟨tk', hreads, hholds⟩ := ih hholds₁ (by omega) hc htyped
      rw [if_neg hascii, List.filter_cons_of_pos (by simpa using hascii), List.getLastD_cons]
      exact ⟨tk', ⟨_, hread, hreads⟩, hholds⟩

/-- Behind `ESC O` and a byte that is unknown there, keys are no longer answered for in their order: printable bytes
overtake the byte that was left, and every other key is answered for one key late. -/
theorem readsAll_overtaken (hs : s.drivers = [.csi]) (hutf8 : ¬ HasFlag s.flags flagUtf8) (h : Holds s csi size [] tk)
    (hlow : tk.hightide ≤ size / 4) (hsize : 8 ≤ size) (hunknown : Ss3Unknown s.toInterpretation x)
    (hx : ¬ Introducer x) {typed : List Byte} (htyped : ∀ c ∈ typed, ¬ Introducer c) (rest : List Byte) :
    ∃ tk', ReadsAll (tk, 0x1b :: 0x4f :: x :: (typed ++ rest)) (⟨0x1b, .unknown⟩ :: lagged s.toInterpretation x typed)
        (tk', rest) ∧
      Holds s csi size [(typed.filter fun c => ¬ IsAscii c).getLastD x] tk' := by
  obtain ⟨tk₁, hread, hholds₁, hbelow⟩ := reads_ss3 hs h hlow hsize hunknown (typed ++ rest)
  obtain ⟨tk', hreads, hholds⟩ := readsAll_lagged hs hutf8 hholds₁ (by omega) hx htyped rest
  exact ⟨tk', ⟨_, hread, hreads⟩, hholds⟩

/-- Alt-O, `a`, Tab, `b` and Enter: the answers are unknown, unknown, `b` and Tab. -/
theorem readsAll_overtaken_tab : ∃ tk tk', termkeyNewAbstract [.csi] (flagNotermios ||| flagCtrlc) (fun _ => 0) = some tk ∧
    ReadsAll (tk, [0x1b, 0x4f, 0x61, 0x09, 0x62, 0x0d]) [⟨0x1b, .unknown⟩, ⟨0x09, .unknown⟩, ⟨0x62, .ascii⟩, ⟨0x0d, .tab⟩]
      (tk', []) := by
  obtain ⟨tk, hnew⟩ : ∃ tk, termkeyNewAbstract [.csi] (flagNotermios ||| flagCtrlc) (fun _ => 0) = some tk := ⟨_, rfl⟩
  obtain ⟨hholds, hdrivers⟩ := holds_new (by decide) hnew
  obtain ⟨hlow, hsettings⟩ : tk.hightide ≤ 256 / 4 ∧
      tk.toInterpretation = termkeySetFlags ⟨0, 0, false, initC0⟩ (flagNotermios ||| flagCtrlc) := by
    cases hnew
    exact ⟨by decide, rfl⟩
  have hutf8 : ¬ HasFlag tk.flags flagUtf8 := by
    rw [hsettings]
    decide
  have hunknown : Ss3Unknown tk.toInterpretation 0x61 := by
    rw [hsettings]
    exact Or.inr (by decide)
  have htyped : ∀ c ∈ ([0x09, 0x62, 0x0d] : List Byte), ¬ Introducer c := by decide +kernel
  have hsize : 8 ≤ 256 := by decide
  obtain ⟨tk', hreads, -⟩ := readsAll_overtaken hdrivers hutf8 hholds hlow hsize hunknown (by decide) htyped []
  have hlagged : lagged tk.toInterpretation 0x61 [0x09, 0x62, 0x0d] =
      [⟨0x09, .unknown⟩, ⟨0x62, .ascii⟩, ⟨0x0d, .tab⟩] := by
    rw [hsettings]
    simp only [lagged, byteKey_eq]
    decide
  rw [hlagged] at hreads
  exact ⟨tk, tk', hnew, hreads⟩

end Overtaken

end MutantC.PosixTerminal
