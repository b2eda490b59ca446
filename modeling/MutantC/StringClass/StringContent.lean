import MutantC.Librope.RopeCheck
import MutantC.StringClass.StringDefs

/-! The methods of the string class refine operations on a list of characters. -/

namespace MutantC.StringClass
open CBuffer Iteration SkipList Librope

def newHead (env : Env) : Leaf := ⟨headPtr, 1, [], (env.junk headPtr).str⟩

theorem ropeNew2_spec (env : Env) : Repr (ropeNew2 env) 1 [newHead env] := by
  refine ⟨⟨⟨newHead env, [], rfl, rfl, rfl⟩, by decide, ?_, ?_, ?_, ?_, by simp, ?_, ?_, ?_⟩, ?_, rfl, rfl⟩
  · intro l hl
    obtain rfl := List.mem_singleton.1 hl
    exact Nat.one_pos
  · intro l hl hne
    obtain rfl := List.mem_singleton.1 hl
    exact absurd rfl hne
  · intro l hl hne
    obtain rfl := List.mem_singleton.1 hl
    exact absurd rfl hne
  · intro l hl
    obtain rfl := List.mem_singleton.1 hl
    have := env.length_junk headPtr
    simpa [newHead, Leaf.bytes] using this
  · intro l hl
    obtain rfl := List.mem_singleton.1 hl
    simp [ropeNew2, newHead, Leaf.node, Leaf.bytes]
  · intro l hl
    obtain rfl := List.mem_singleton.1 hl
    exact Nat.one_pos
  · refine ⟨fun i hi => ?_, trivial⟩
    have hi' : i < 1 := hi
    obtain rfl : i = 0 := by omega
    rfl
  · intro p hp
    have hne : p ≠ headPtr := by simpa [newHead, Leaf.tower] using hp
    exact if_neg hne

def Shows (r : Rope) (txt : List Utf8Char) : Prop := ∃ H ls, Repr r H ls ∧ text ls = txt

theorem shows_ropeNew2 (env : Env) : Shows (ropeNew2 env) [] := ⟨1, _, ropeNew2_spec env, rfl⟩

section
variable (env : Env) {r : Rope} {txt : List Utf8Char}

theorem Shows.observe (h : Shows r txt) :
    ropeContent r = some (utf8Bytes txt) ∧ stringClassGetLength r = txt.length ∧
      ropeCheck r = some () := by
  obtain ⟨H, ls, hr, rfl⟩ := h
  exact ⟨ropeContent_eq hr.toLayout, hr.numChars, ropeCheck_eq hr⟩

theorem Shows.insert (h : Shows r txt) (pos : ℕ) (cs : List Utf8Char) :
    ∃ r', ropeInsert env r pos (utf8Bytes cs) = some (.ok, r') ∧
      Shows r' (txt.take (min pos txt.length) ++ cs ++ txt.drop (min pos txt.length)) := by
  obtain ⟨H, ls, hr, rfl⟩ := h
  obtain ⟨pre, e, post, a, b, r', H', ls', hat, hrun, hins, hr'⟩ := ropeInsert_spec env hr pos cs
  exact ⟨r', hrun, H', ls', hr', hat.splice hins⟩

theorem Shows.insert_invalid (h : Shows r txt) (pos : ℕ) {str : List Byte}
    (hstr : bytelenAndCheckUtf8 str = none) : ropeInsert env r pos str = some (.invalidUtf8, r) := by
  obtain ⟨H, ls, hr, rfl⟩ := h
  exact ropeInsert_invalid env hr pos hstr

theorem Shows.clear (h : Shows r txt) : ∃ r', ropeDel r 0 (ropeCharCount r) = some r' ∧ Shows r' [] := by
  obtain ⟨H, ls, hr, rfl⟩ := h
  obtain ⟨l, t, rfl, -⟩ := hr.rooted
  obtain ⟨r', hrun, hr'⟩ := ropeDel_all hr
  exact ⟨r', hrun, H, _, hr', rfl⟩

theorem Shows.insert_bytes (h : Shows r txt) (pos : ℕ) (s : CString) :
    ∃ r', (ropeInsert env r pos s.bytes).map Prod.snd = some r' ∧ Shows r'
      (match decodeUtf8 s.bytes with
        | some cs => txt.take (min pos txt.length) ++ cs ++ txt.drop (min pos txt.length)
        | none => txt) := by
  by_cases hs : s.Valid
  · obtain ⟨cs, hcs⟩ := exists_chars_of_check hs
    obtain ⟨r', hrun, h'⟩ := h.insert env pos cs
    refine ⟨r', ?_, ?_⟩
    · rw [hcs, hrun]
      rfl
    · simp only [hcs, decodeUtf8_utf8Bytes]
      exact h'
  · have hbad : bytelenAndCheckUtf8 s.bytes = none := not_not.1 hs
    refine ⟨r, ?_, ?_⟩
    · rw [h.insert_invalid env pos hbad]
      rfl
    · simp only [decodeUtf8_of_invalid hbad]
      exact h

theorem Shows.call (h : Shows r txt) (c : Call) (hc : ∀ s, c = .set s → s.Valid) :
    ∃ r', StringClass.call env r c = some r' ∧ Shows r' (editText txt c) := by
  have hlen : r.numChars = txt.length := h.observe.2.1
  cases c with
  | set s =>
    obtain ⟨cs, hcs⟩ := exists_chars_of_check (hc s rfl)
    obtain ⟨r₁, hdel, h₁⟩ := h.clear
    obtain ⟨r', hrun, h'⟩ := h₁.insert env 0 cs
    refine ⟨r', ?_, ?_⟩
    · rw [StringClass.call, stringClassSet, Option.bind_eq_bind, hdel, Option.bind_some, hcs, hrun]
      rfl
    · rw [editText, hcs, decodeUtf8_utf8Bytes, Option.getD_some]
      simpa using h'
  | insertCstrAt pos s => exact h.insert_bytes env pos s
  | appendCstr s =>
    obtain ⟨r', hrun, h'⟩ := h.insert_bytes env r.numChars s
    refine ⟨r', hrun, ?_⟩
    -- at the length of the text nothing is left behind the place of insertion
    rw [hlen, Nat.min_self, List.take_length, List.drop_length] at h'
    unfold editText
    cases hdecode : decodeUtf8 s.bytes with
    | none => simpa only [hdecode] using h'
    | some cs => simpa only [hdecode, List.append_nil] using h'

end

theorem Shows.run {env : Env} {r : Rope} {txt : List Utf8Char} (h : Shows r txt) (calls : List Call)
    (hset : ∀ s, .set s ∈ calls → s.Valid) :
    ∃ r', Iteration.run (StringClass.call env) r calls = some r' ∧ Shows r' (calls.foldl editText txt) := by
  induction calls generalizing r txt with
  | nil => exact ⟨r, rfl, h⟩
  | cons c calls ih =>
    obtain ⟨r₁, hcall, h₁⟩ := h.call env c fun s hs => hset s (hs ▸ List.mem_cons_self)
    obtain ⟨r', hrun, h'⟩ := ih h₁ fun s hs => hset s (List.mem_cons_of_mem c hs)
    exact ⟨r', by rw [Iteration.run, hcall, Option.bind_some, hrun], h'⟩

/-- Whatever heights are drawn, every run ends in a rope that passes `_rope_check` and holds the text
the calls describe. -/
theorem stringRun_refines (env : Env) (calls : List Call) (hset : ∀ s, .set s ∈ calls → s.Valid) :
    ∃ r, stringRun env calls = some r ∧ ropeContent r = some (utf8Bytes (textOf calls)) ∧
      stringClassGetLength r = (textOf calls).length ∧ ropeCheck r = some () := by
  obtain ⟨r, hrun, h⟩ := (shows_ropeNew2 env).run calls hset
  exact ⟨r, hrun, h.observe⟩

/-- `set("Ho")`, an insertion inside it, and an append of bytes that are no UTF-8. -/
def greeting : List Call :=
  [.set ⟨[72, 111], by decide⟩, .insertCstrAt 1 ⟨[101, 121, 33, 32], by decide⟩,
    .appendCstr ⟨[195], by decide⟩]

theorem stringRun_refines_greeting :
    ∃ r, stringRun (gcEnv fun _ => 7) greeting = some r ∧
      ropeContent r = some (utf8Bytes (textOf greeting)) ∧
      stringClassGetLength r = (textOf greeting).length ∧ ropeCheck r = some () := by
  refine stringRun_refines (gcEnv fun _ => 7) greeting fun s hs => ?_
  simp only [greeting, List.mem_cons, Call.set.injEq, List.not_mem_nil, reduceCtorEq, or_false] at hs
  subst hs
  decide

/-! ### A string that is no UTF-8 -/

/-- `set` asks for the string's validity only after the old content is gone. -/
theorem Shows.set_invalid (env : Env) {r : Rope} {txt : List Utf8Char} (h : Shows r txt) {s : CString}
    (hs : ¬ s.Valid) : ∃ r', stringClassSet env r s = some r' ∧ Shows r' [] := by
  obtain ⟨r', hdel, h'⟩ := h.clear
  refine ⟨r', ?_, h'⟩
  rw [stringClassSet, Option.bind_eq_bind, hdel, Option.bind_some, h'.insert_invalid env 0 (not_not.1 hs)]
  rfl

theorem Shows.exists_call (env : Env) {r : Rope} {txt : List Utf8Char} (h : Shows r txt) (c : Call) :
    ∃ r' txt', StringClass.call env r c = some r' ∧ Shows r' txt' := by
  by_cases hset : ∀ s, c = .set s → s.Valid
  · obtain ⟨r', hcall, h'⟩ := h.call env c hset
    exact ⟨r', _, hcall, h'⟩
  · push Not at hset
    obtain ⟨s, rfl, hs⟩ := hset
    obtain ⟨r', hcall, h'⟩ := h.set_invalid env hs
    exact ⟨r', [], hcall, h'⟩

theorem Shows.exists_run (env : Env) {r : Rope} {txt : List Utf8Char} (h : Shows r txt)
    (calls : List Call) : ∃ r' txt', Iteration.run (StringClass.call env) r calls = some r' ∧ Shows r' txt' := by
  have hstep : ∀ r c, (∃ txt, Shows r txt) → True →
      ∃ r', StringClass.call env r c = some r' ∧ ∃ txt, Shows r' txt := by
    rintro r c ⟨txt, hr⟩ -
    obtain ⟨r', txt', hcall, h'⟩ := hr.exists_call env c
    exact ⟨r', hcall, txt', h'⟩
  obtain ⟨r', hrun, txt', h'⟩ := Iteration.exists_run hstep ⟨txt, h⟩ fun c (_ : c ∈ calls) => trivial
  exact ⟨r', txt', hrun, h'⟩

/-- `set` either takes the string or, when `rope_insert` rejects it, leaves the object as it was. -/
def AllOrNothing (env : Env) (r : Rope) (s : CString) : Prop :=
  ∃ r', stringClassSet env r s = some r' ∧
    if s.Valid then ropeContent r' = some s.bytes
    else ropeContent r' = ropeContent r ∧ stringClassGetLength r' = stringClassGetLength r

/-- After any calls, an invalid string empties the object, whatever it held. -/
theorem set_all_or_nothing_iff (env : Env) (calls : List Call) (s : CString) :
    ∃ r, stringRun env calls = some r ∧
      (AllOrNothing env r s ↔ s.Valid ∨ ropeContent r = some []) := by
  obtain ⟨r, txt, hrun, h⟩ := (shows_ropeNew2 env).exists_run env calls
  refine ⟨r, hrun, ?_⟩
  by_cases hs : s.Valid
  · refine iff_of_true ?_ (Or.inl hs)
    obtain ⟨r', hset, h'⟩ := h.call env (.set s) fun s' hs' => Call.set.inj hs' ▸ hs
    obtain ⟨cs, hcs⟩ := exists_chars_of_check hs
    refine ⟨r', hset, ?_⟩
    rw [if_pos hs, h'.observe.1, editText, hcs, decodeUtf8_utf8Bytes, Option.getD_some]
  · rw [or_iff_right hs]
    obtain ⟨r', hset, h'⟩ := h.set_invalid env hs
    obtain ⟨hcontent, hlength, -⟩ := h.observe
    obtain ⟨hcontent', hlength', -⟩ := h'.observe
    constructor
    · rintro ⟨r'', hset'', hkept⟩
      obtain rfl := Option.some.inj (hset.symm.trans hset'')
      rw [if_neg hs] at hkept
      rw [← hkept.1, hcontent', utf8Bytes_nil]
    · intro hempty
      have hnil : txt = [] := utf8Bytes_eq_nil.1 (Option.some.inj (hcontent.symm.trans hempty))
      subst hnil
      refine ⟨r', hset, ?_⟩
      rw [if_neg hs]
      exact ⟨hcontent'.trans hcontent.symm, hlength'.trans hlength.symm⟩

/-- `set` of the byte 195 alone on an object that holds `Hi`. -/
theorem invalid_set_empties :
    ∃ r, stringRun (gcEnv fun _ => 99) [.set ⟨[72, 105], by decide⟩] = some r ∧
      ropeContent r = some [72, 105] ∧ ¬ AllOrNothing (gcEnv fun _ => 99) r ⟨[195], by decide⟩ := by
  obtain ⟨r, hrun, h⟩ := (shows_ropeNew2 (gcEnv fun _ => 99)).run [.set ⟨[72, 105], by decide⟩] fun s hs => by
    obtain rfl := Call.set.inj (List.mem_singleton.1 hs)
    decide
  have htext : utf8Bytes (textOf [.set ⟨[72, 105], by decide⟩]) = [72, 105] := by decide +kernel
  have hcontent : ropeContent r = some [72, 105] := h.observe.1.trans (congrArg some htext)
  refine ⟨r, hrun, hcontent, ?_⟩
  rintro ⟨r', hset, hkept⟩
  obtain ⟨r'', hset', h'⟩ := h.set_invalid (gcEnv fun _ => 99) (s := ⟨[195], by decide⟩) (by decide)
  obtain rfl := Option.some.inj (hset.symm.trans hset')
  rw [if_neg (by decide), hcontent, h'.observe.1] at hkept
  exact List.cons_ne_nil _ _ (Option.some.inj hkept.1).symm

end MutantC.StringClass
