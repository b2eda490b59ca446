import MutantC.Librope.RopeSplit

/-! `rope_insert` on the list of leaves: which of the three places the string goes to, and what the
leaves are afterwards. -/

namespace MutantC.Librope
open CBuffer Iteration SkipList

def Fits (l : Leaf) (cs : List Utf8Char) : Prop :=
  l.bytes.length + (utf8Bytes cs).length ≤ ropeNodeStrSize

/-- The position falls into the leaf `e`, after its characters `a`. -/
structure At (ls : List Leaf) (pos : ℕ) (pre : List Leaf) (e : Leaf) (post : List Leaf)
    (a b : List Utf8Char) : Prop where
  leaves : ls = pre ++ e :: post
  chars : e.chars = a ++ b
  length : (text pre ++ a).length = pos
  left : a ≠ [] ∨ pre = []

section
variable (env : Env)

/-- The leaves after `cs` is inserted into `e` after its characters `a`: in `e` itself, at the start
of the next leaf, or in new leaves. -/
inductive Inserted (pre : List Leaf) (e : Leaf) (post : List Leaf) (a b cs : List Utf8Char) :
    List Leaf → Prop
  | here (hfit : Fits e cs) :
    Inserted pre e post a b cs (pre ++
      { e with chars := a ++ cs ++ b, slack := e.slack.drop (utf8Bytes cs).length } :: post)
  | next {nx : Leaf} {rest : List Leaf} (hfull : ¬ Fits e cs) (hb : b = []) (hpost : post = nx :: rest)
    (hfit : Fits nx cs) :
    Inserted pre e post a b cs (pre ++ e ::
      { nx with chars := cs ++ nx.chars, slack := nx.slack.drop (utf8Bytes cs).length } :: rest)
  | split {H' : ℕ} {news tail : List Leaf} (hfull : ¬ Fits e cs)
    (hnext : b = [] → ∀ nx ∈ post.head?, ¬ Fits nx cs) (hnodes : SplitNodes env cs b news tail) :
    Inserted pre e post a b cs
      (raise H' (pre ++ [{ e with chars := a, slack := utf8Bytes b ++ e.slack }]) ++
        news ++ tail ++ post)

variable {env} in
theorem SplitNodes.text_eq {cs b : List Utf8Char} {news tail : List Leaf}
    (h : SplitNodes env cs b news tail) : text news = cs ∧ text tail = b := by
  refine ⟨text_of_pieces h.news_chars, ?_⟩
  have htail := h.tail_chars
  rw [text, List.flatMap, htail]
  split_ifs with hb
  · exact hb.symm
  · simp

variable {env} in
theorem Inserted.text_eq {pre post ls' : List Leaf} {e : Leaf} {a b cs : List Utf8Char}
    (h : Inserted env pre e post a b cs ls') (hchars : e.chars = a ++ b) :
    text ls' = text pre ++ a ++ cs ++ b ++ text post := by
  cases h with
  | here hfit => simp
  | next hfull hb hpost hfit =>
    subst hb hpost
    simp [hchars]
  | split hfull hnext hnodes =>
    obtain ⟨hnews, htail⟩ := hnodes.text_eq
    simp only [text_append, text_raise, text_cons, text_nil, hnews, htail, List.append_nil]

variable {env} in
theorem At.splice {ls ls' pre post : List Leaf} {pos : ℕ} {e : Leaf} {a b cs : List Utf8Char}
    (h : At ls pos pre e post a b) (hins : Inserted env pre e post a b cs ls') :
    text ls' = (text ls).take pos ++ cs ++ (text ls).drop pos := by
  have hls : text ls = (text pre ++ a) ++ (b ++ text post) := by
    rw [h.leaves]
    simp [h.chars]
  rw [hins.text_eq h.chars, hls, ← h.length, List.take_left, List.drop_left]
  simp

end

section
variable {r : Rope} {H : ℕ} {pre post : List Leaf} {e : Leaf} {iter : RopeIter} {a b : List Utf8Char}
  {n : ℕ}

theorem insertSpot_here (hr : Repr r H (pre ++ e :: post)) (h : e.bytes.length + n ≤ ropeNodeStrSize)
    (o : ℕ) : insertSpot r e.addr iter o n = some ⟨e.addr, iter, o, true⟩ := by
  rw [insertSpot, hr.live e (by simp)]
  simp only [Option.bind_eq_bind, Option.bind_some, Leaf.node, if_pos h]

theorem insertSpot_next {nx : Leaf} {rest : List Leaf} (hr : Repr r H (pre ++ e :: nx :: rest))
    (hfull : ¬ e.bytes.length + n ≤ ropeNodeStrSize) (h : nx.bytes.length + n ≤ ropeNodeStrSize)
    (hpt : PointsAt iter (pre ++ [e])) :
    ∃ iter', insertSpot r e.addr iter e.bytes.length n = some ⟨nx.addr, iter', 0, true⟩ ∧
      PointsAt iter' (pre ++ [e] ++ [nx]) := by
  have hlive := hr.live nx (by simp)
  have hmax : nx.height ≤ ropeMaxHeight := (hr.height_le_of_mem (l := nx) (by simp)).trans hr.height_le
  have hloop := forRange_eq (b := fun i iter => RopeIter.set iter i { iter i with next := some nx.addr })
    (fun k j => if j < k then { iter j with next := some nx.addr } else iter j)
    (Nat.zero_le nx.height) fun i _ hi => by
      rw [RopeIter.set_eq (hi.trans_le hmax)]
      refine congrArg some (funext fun j => ?_)
      by_cases hj : j = i
      · simp [hj]
      · simp [hj, Nat.le_iff_lt_or_eq]
  refine ⟨fun j => if j < nx.height then { iter j with next := some nx.addr } else iter j, ?_, ?_⟩
  · rw [insertSpot, hr.live e (by simp), hr.toLayout.first]
    simp only [Option.bind_eq_bind, Option.bind_some, Leaf.node, if_neg hfull, if_true,
      List.head?_cons, Option.map_some, hlive, if_pos h]
    simp only [Nat.not_lt_zero, if_false] at hloop
    rw [hloop, Option.bind_some]
  · intro i p hp
    rw [towers_append, towers_cons, towers_nil, pred_snoc] at hp
    by_cases hi : i < nx.height
    · rw [if_pos (show i < nx.tower.height from hi)] at hp
      simp only [if_pos hi]
      exact hp
    · rw [if_neg (show ¬ i < nx.tower.height from hi), Option.map_map] at hp
      simp only [if_neg hi]
      exact hpt i p hp

theorem insertSpot_split (hr : Repr r H (pre ++ e :: post)) (hchars : e.chars = a ++ b)
    (hfull : ¬ e.bytes.length + n ≤ ropeNodeStrSize)
    (hnext : b = [] → ∀ nx ∈ post.head?, ¬ nx.bytes.length + n ≤ ropeNodeStrSize) :
    insertSpot r e.addr iter (utf8Bytes a).length n =
      some ⟨e.addr, iter, (utf8Bytes a).length, false⟩ := by
  have hbytes : e.bytes.length = (utf8Bytes a).length + (utf8Bytes b).length := by
    rw [Leaf.bytes, hchars, utf8Bytes_append, List.length_append]
  have hend : (utf8Bytes a).length = e.bytes.length ↔ b = [] := by
    rw [hbytes, ← utf8Bytes_eq_nil, ← List.length_eq_zero_iff]
    omega
  rw [insertSpot, hr.live e (by simp), hr.toLayout.first]
  simp only [Option.bind_eq_bind, Option.bind_some, Leaf.node, if_neg hfull, hend]
  split_ifs with hb
  · cases post with
    | nil => rfl
    | cons nx rest =>
      have hnx := hnext hb nx rfl
      simp only [List.head?_cons, Option.map_some, hr.live nx (by simp), Option.bind_some, Leaf.node,
        if_neg hnx]
  · rfl

end

section
variable (env : Env)

theorem ropeInsertAtIter_spec {r : Rope} {H : ℕ} {pre post : List Leaf} {e : Leaf} {iter : RopeIter}
    {a b : List Utf8Char} (hr : Repr r H (pre ++ e :: post)) (hchars : e.chars = a ++ b)
    (ha : a ≠ [] ∨ pre = []) (hzero : iter 0 = ⟨a.length, some e.addr⟩)
    (hit : IterAt iter (pre ++ [{ e with chars := a }])) (cs : List Utf8Char) :
    ∃ r' H' ls', ropeInsertAtIter env r e.addr iter (utf8Bytes cs) = some (.ok, r') ∧
      Inserted env pre e post a b cs ls' ∧ Repr r' H' ls' := by
  have hpt : PointsAt iter (pre ++ [e]) := hit.pointsAt.resize rfl rfl
  have hoffset : (if a.length = 0 then 0 else countBytesInUtf8 e.node.str a.length) =
      (utf8Bytes a).length := by
    split_ifs with h
    · rw [List.length_eq_zero_iff.1 h]
      rfl
    · rw [Leaf.node, Leaf.bytes, hchars, utf8Bytes_append, List.append_assoc, countBytesInUtf8_append]
  have hle : a.length ≤ e.chars.length := by
    rw [hchars, List.length_append]
    omega
  have hstart : ropeInsertAtIter env r e.addr iter (utf8Bytes cs) =
      ((insertSpot r e.addr iter (utf8Bytes a).length (utf8Bytes cs).length).bind fun spot =>
        (if spot.here then
          insertHere r spot.e spot.iter spot.offsetBytes (utf8Bytes cs) (utf8Bytes cs).length
        else insertSplit env r e.addr iter a.length (utf8Bytes a).length (utf8Bytes cs)).bind fun r =>
          some (.ok, r)) := by
    rw [ropeInsertAtIter, hr.live e (by simp), hr.toLayout.first]
    simp only [Option.bind_eq_bind, Option.bind_some, hzero, guard_bind (Or.inr hle), hoffset,
      bytelenAndCheckUtf8_utf8Bytes]
    refine congrArg _ (funext fun spot => ?_)
    split_ifs <;> rfl
  by_cases hfit : Fits e cs
  · obtain ⟨r', hrun, hr'⟩ := insertHere_spec hr hpt hchars hfit
    refine ⟨r', H, _, ?_, .here hfit, hr'⟩
    rw [hstart, insertSpot_here hr hfit, Option.bind_some, if_pos rfl, hrun, Option.bind_some]
  · by_cases hnext : b = [] → ∀ nx ∈ post.head?, ¬ Fits nx cs
    · obtain ⟨r', H', news, tail, hrun, hnodes, hr'⟩ := insertSplit_spec env cs hr hchars ha hit
      refine ⟨r', H', _, ?_, .split hfit hnext hnodes, hr'⟩
      rw [hstart, insertSpot_split hr hchars hfit hnext, Option.bind_some, if_neg (by simp), hrun,
        Option.bind_some]
    · push Not at hnext
      obtain ⟨rfl, nx, hhead, hnx⟩ := hnext
      obtain ⟨rest, rfl⟩ : ∃ rest, post = nx :: rest := by
        cases post with
        | nil => cases hhead
        | cons p rest => exact ⟨rest, by rw [Option.some.inj hhead]⟩
      obtain ⟨iter', hspot, hpt'⟩ := insertSpot_next hr hfit hnx hpt
      obtain ⟨r', hrun, hr'⟩ := insertHere_spec (a := []) (b := nx.chars)
        (show Repr r H ((pre ++ [e]) ++ nx :: rest) by simpa using hr) hpt' rfl hnx
      refine ⟨r', H, _, ?_, .next hfit rfl rfl hnx, by simpa using hr'⟩
      have hbytes : (utf8Bytes a).length = e.bytes.length := by
        rw [Leaf.bytes, hchars, List.append_nil]
      rw [hstart, hbytes, hspot, Option.bind_some, if_pos rfl]
      exact hrun ▸ rfl

theorem ropeInsert_spec {r : Rope} {H : ℕ} {ls : List Leaf} (hr : Repr r H ls) (pos : ℕ)
    (cs : List Utf8Char) :
    ∃ pre e post a b r' H' ls', At ls (min pos (text ls).length) pre e post a b ∧
      ropeInsert env r pos (utf8Bytes cs) = some (.ok, r') ∧ Inserted env pre e post a b cs ls' ∧
      Repr r' H' ls' := by
  obtain ⟨pre, e, post, a, b, iter, rfl, hchars, hlen, ha, hiter, hzero, hit⟩ :=
    iterAtCharPos_spec hr (min_le_right pos (text ls).length)
  obtain ⟨r', H', ls', hrun, hins, hr'⟩ := ropeInsertAtIter_spec env hr hchars ha hzero hit cs
  refine ⟨pre, e, post, a, b, r', H', ls', ⟨rfl, hchars, hlen, ha⟩, ?_, hins, hr'⟩
  rw [ropeInsert, hr.numChars, hiter]
  exact hrun

theorem ropeInsert_invalid {r : Rope} {H : ℕ} {ls : List Leaf} (hr : Repr r H ls) (pos : ℕ)
    {str : List Byte} (h : bytelenAndCheckUtf8 str = none) :
    ropeInsert env r pos str = some (.invalidUtf8, r) := by
  obtain ⟨pre, e, post, a, b, iter, rfl, hchars, -, -, hiter, hzero, -⟩ :=
    iterAtCharPos_spec hr (min_le_right pos (text ls).length)
  have hle : a.length ≤ e.chars.length := by
    rw [hchars, List.length_append]
    omega
  rw [ropeInsert, hr.numChars, hiter]
  simp only [Option.bind_eq_bind, Option.bind_some]
  rw [ropeInsertAtIter, hr.live e (by simp), hr.toLayout.first]
  simp only [Option.bind_eq_bind, Option.bind_some, hzero, guard_bind (Or.inr hle), h]

end

end MutantC.Librope
