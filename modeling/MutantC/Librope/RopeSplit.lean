import MutantC.Librope.RopeSplice

/-! A string too long for the nodes at hand is cut into pieces, one new node each; where it goes into
the middle of a node, the end of that node follows in a node of its own. -/

namespace MutantC.Librope
open CBuffer Iteration SkipList

/-- The characters that still fit in `room` bytes, and the groups the others make in full nodes. -/
def groupFrom : ℕ → List Utf8Char → List Utf8Char × List (List Utf8Char)
  | _, [] => ([], [])
  | room, c :: cs =>
    if c.bytes.length ≤ room then
      let rest := groupFrom (room - c.bytes.length) cs
      (c :: rest.1, rest.2)
    else
      let rest := groupFrom (ropeNodeStrSize - c.bytes.length) cs
      ([], (c :: rest.1) :: rest.2)

/-- The pieces a string is cut into, each as long as a node allows. -/
def pieces (cs : List Utf8Char) : List (List Utf8Char) := (groupFrom 0 cs).2

@[simp] theorem pieces_nil : pieces [] = [] := rfl

theorem pieces_cons (c : Utf8Char) (cs : List Utf8Char) :
    pieces (c :: cs) = (groupFrom ropeNodeStrSize (c :: cs)).1 :: (groupFrom ropeNodeStrSize (c :: cs)).2 := by
  have hpos := c.length_pos
  have hle := c.length_le
  have hfit : c.bytes.length ≤ ropeNodeStrSize := hle.trans (by decide)
  simp only [pieces, groupFrom, if_neg (show ¬ c.bytes.length ≤ 0 by omega), if_pos hfit]

theorem groupFrom_split (room : ℕ) (cs : List Utf8Char) :
    ∃ rest, cs = (groupFrom room cs).1 ++ rest ∧ (groupFrom room cs).2 = pieces rest := by
  induction cs generalizing room with
  | nil => exact ⟨[], rfl, rfl⟩
  | cons c cs ih =>
    by_cases hc : c.bytes.length ≤ room
    · obtain ⟨rest, heq, hrest⟩ := ih (room - c.bytes.length)
      refine ⟨rest, ?_, ?_⟩
      · simp only [groupFrom, if_pos hc, List.cons_append, ← heq]
      · simp only [groupFrom, if_pos hc, hrest]
    · have hpos := c.length_pos
      refine ⟨c :: cs, ?_, ?_⟩
      · simp [groupFrom, hc]
      · simp only [pieces, groupFrom, if_neg hc, if_neg (show ¬ c.bytes.length ≤ 0 by omega)]

theorem groupFrom_length_le (room : ℕ) (cs : List Utf8Char) :
    (utf8Bytes (groupFrom room cs).1).length ≤ room := by
  induction cs generalizing room with
  | nil => simp [groupFrom]
  | cons c cs ih =>
    rw [groupFrom]
    split_ifs with hc
    · have := ih (room - c.bytes.length)
      simp only [utf8Bytes_cons, List.length_append]
      omega
    · simp

theorem pieces_split {cs : List Utf8Char} (h : cs ≠ []) :
    ∃ p rest, cs = p ++ rest ∧ p ≠ [] ∧ p = (groupFrom ropeNodeStrSize cs).1 ∧
      pieces cs = p :: pieces rest ∧ (utf8Bytes p).length ≤ ropeNodeStrSize := by
  cases cs with
  | nil => exact absurd rfl h
  | cons c cs =>
    obtain ⟨rest, heq, hrest⟩ := groupFrom_split ropeNodeStrSize (c :: cs)
    refine ⟨_, rest, heq, ?_, rfl, by rw [pieces_cons, hrest], groupFrom_length_le _ _⟩
    have hfit : c.bytes.length ≤ ropeNodeStrSize := c.length_le.trans (by decide)
    simp [groupFrom, hfit]

theorem flatten_pieces (cs : List Utf8Char) : (pieces cs).flatten = cs := by
  induction hn : cs.length using Nat.strong_induction_on generalizing cs with
  | _ n ih =>
    subst hn
    by_cases h : cs = []
    · rw [h]
      rfl
    · obtain ⟨p, rest, rfl, hp, -, heq, -⟩ := pieces_split h
      have hpos := List.length_pos_of_ne_nil hp
      rw [heq, List.flatten_cons, ih rest.length (by simp only [List.length_append]; omega) rest rfl]

theorem length_le_of_mem_pieces {cs p : List Utf8Char} (h : p ∈ pieces cs) :
    (utf8Bytes p).length ≤ ropeNodeStrSize := by
  have key : ∀ (ds : List Utf8Char) (room : ℕ), ∀ q ∈ (groupFrom room ds).2,
      (utf8Bytes q).length ≤ ropeNodeStrSize := by
    intro ds
    induction ds with
    | nil => simp [groupFrom]
    | cons d ds ih =>
      intro room q hq
      rw [groupFrom] at hq
      split_ifs at hq with hd
      · exact ih _ q hq
      · have hlen := groupFrom_length_le (ropeNodeStrSize - d.bytes.length) ds
        have hfit : d.bytes.length ≤ ropeNodeStrSize := d.length_le.trans (by decide)
        rcases List.mem_cons.1 hq with rfl | hq
        · simp only [utf8Bytes_cons, List.length_append]
          omega
        · exact ih _ q hq
  exact key cs 0 p h

theorem codepointSize_getD (p : List Utf8Char) (c : Utf8Char) (cs : List Utf8Char) :
    codepointSize ((utf8Bytes (p ++ c :: cs)).getD (utf8Bytes p).length 0) = c.bytes.length := by
  rw [c.length_bytes, utf8Bytes_append, List.getD_eq_getElem?_getD, List.getElem?_append_right le_rfl,
    Nat.sub_self]
  rfl

theorem cutLoop_eq (p cs : List Utf8Char) (fuel : ℕ) (hfuel : cs.length ≤ fuel) :
    cutLoop (utf8Bytes (p ++ cs)) fuel (utf8Bytes p).length p.length =
      let more := (groupFrom (ropeNodeStrSize - (utf8Bytes p).length) cs).1
      ((utf8Bytes (p ++ more)).length, (p ++ more).length) := by
  induction cs generalizing p fuel with
  | nil =>
    cases fuel with
    | zero => simp [cutLoop, groupFrom]
    | succ fuel => simp [cutLoop, groupFrom]
  | cons c cs ih =>
    cases fuel with
    | zero => simp at hfuel
    | succ fuel =>
      have hpos := c.length_pos
      have hmore : (utf8Bytes p).length < (utf8Bytes (p ++ c :: cs)).length := by
        simp only [utf8Bytes_append, utf8Bytes_cons, List.length_append]
        omega
      rw [cutLoop, if_pos hmore, codepointSize_getD]
      by_cases hfit : ropeNodeStrSize < c.bytes.length + (utf8Bytes p).length
      · simp only [if_pos hfit, groupFrom,
          if_neg (show ¬ c.bytes.length ≤ ropeNodeStrSize - (utf8Bytes p).length by omega),
          List.append_nil]
      · have hih := ih (p ++ [c]) fuel (by simpa using hfuel)
        simp only [List.append_assoc, List.singleton_append, utf8Bytes_append p [c], utf8Bytes_cons,
          utf8Bytes_nil, List.append_nil, List.length_append, List.length_singleton] at hih
        simp only [if_neg hfit, hih, groupFrom,
          if_pos (show c.bytes.length ≤ ropeNodeStrSize - (utf8Bytes p).length by omega)]
        rw [Nat.sub_sub]
        simp

theorem cutPiece_eq (cs : List Utf8Char) :
    cutPiece (utf8Bytes cs) =
      ((utf8Bytes (groupFrom ropeNodeStrSize cs).1).length, (groupFrom ropeNodeStrSize cs).1.length) :=
  cutLoop_eq [] cs _ (length_le_utf8Bytes cs)

theorem raise_self {H : ℕ} {xs ys : List Leaf} {r : Rope} (hr : Layout r H (xs ++ ys)) :
    raise H xs = xs := by
  cases xs with
  | nil => rfl
  | cons x xs =>
    obtain ⟨-, hh, -⟩ := hr.tail_addr
    rw [raise, ← hh]

theorem Layout.first {r : Rope} {H : ℕ} {pre post : List Leaf} {e : Leaf}
    (hr : Layout r H (pre ++ e :: post)) :
    r.getNext e.addr 0 = some ⟨e.chars.length, post.head?.map Leaf.addr⟩ := by
  have hmem : e ∈ pre ++ e :: post := by simp
  have hlinked := hr.linked
  rw [towers_append, towers_cons] at hlinked
  have hlink : r.nexts e.addr 0 = link 0 e.tower (towers post) := hlinked.at (hr.height_pos e hmem)
  rw [getNext_eq (hr.live e hmem) (hr.height_pos e hmem), hlink, link]
  cases post with
  | nil => rfl
  | cons p post =>
    have hp : 0 < p.tower.height := hr.height_pos p (by simp)
    rw [towers_cons, hop, if_pos hp]
    rfl

section
variable (env : Env)

/-- A node made by `insert_at`: past its bytes, its block holds what the allocation held. -/
def Made (l : Leaf) : Prop :=
  l.addr ≠ headPtr ∧ l.slack = (env.junk l.addr).str.drop l.bytes.length

theorem insertPieces_spec {fuel : ℕ} {r : Rope} {H : ℕ} {xs ys : List Leaf} {iter : RopeIter}
    (cs : List Utf8Char) (hfuel : (utf8Bytes cs).length ≤ fuel) (hr : Repr r H (xs ++ ys))
    (hxs : xs ≠ []) (hit : IterAt iter xs) :
    ∃ r' iter' H' news, insertPieces env fuel (r, iter) (utf8Bytes cs) = some (r', iter') ∧
      news.map Leaf.chars = pieces cs ∧ (∀ l ∈ news, Made env l) ∧
      Repr r' H' (raise H' xs ++ news ++ ys) ∧ IterAt iter' (raise H' xs ++ news) := by
  induction fuel generalizing r H xs iter cs with
  | zero =>
    obtain rfl : cs = [] := utf8Bytes_eq_nil.1 (List.eq_nil_of_length_eq_zero (by omega))
    refine ⟨r, iter, H, [], rfl, rfl, by simp, ?_, ?_⟩ <;>
      simpa [raise_self hr.toLayout]
  | succ fuel ih =>
    by_cases hcs : cs = []
    · subst hcs
      refine ⟨r, iter, H, [], rfl, rfl, by simp, ?_, ?_⟩ <;>
        simpa [raise_self hr.toLayout]
    · obtain ⟨p, rest, heq, hp, hgroup, hpieces, hlen⟩ := pieces_split hcs
      obtain ⟨r₁, iter₁, H₁, new, hrun, hchars, hslack, hne, hr₁, hit₁⟩ :=
        insertAt_spec env (utf8Bytes rest) hr hxs hit hp hlen
      have hpos := length_le_utf8Bytes p
      have hplen := List.length_pos_of_ne_nil hp
      have hdrop : (utf8Bytes cs).drop (utf8Bytes p).length = utf8Bytes rest := by
        rw [heq, utf8Bytes_append, List.drop_left]
      have hstep : insertPieces env (fuel + 1) (r, iter) (utf8Bytes cs) =
          insertPieces env fuel (r₁, iter₁) (utf8Bytes rest) := by
        have hcut := cutPiece_eq cs
        rw [← hgroup] at hcut
        rw [← utf8Bytes_append, ← heq] at hrun
        rw [← hdrop]
        cases hbytes : utf8Bytes cs with
        | nil => exact absurd (utf8Bytes_eq_nil.1 hbytes) hcs
        | cons b str =>
          rw [hbytes] at hcut hrun
          simp only [insertPieces, hcut, hrun, Option.bind_eq_bind, Option.bind_some]
      have hfuel' : (utf8Bytes rest).length ≤ fuel := by
        rw [heq, utf8Bytes_append, List.length_append] at hfuel
        omega
      obtain ⟨r', iter', H', news, hrun', hnews, hmade, hr', hit'⟩ :=
        ih rest hfuel' (show Repr r₁ H₁ ((raise H₁ xs ++ [new]) ++ ys) by simpa using hr₁) (by simp) hit₁
      rw [raise_append (raise_ne_nil hxs H₁), raise_raise] at hr' hit'
      refine ⟨r', iter', H', new :: news, hstep.trans hrun', ?_, ?_, ?_, ?_⟩
      · rw [List.map_cons, hnews, hchars, hpieces]
      · intro l hl
        rcases List.mem_cons.1 hl with rfl | hl
        · exact ⟨hne, by rw [hslack, Leaf.bytes, hchars]⟩
        · exact hmade l hl
      · simpa using hr'
      · simpa using hit'

theorem text_of_pieces {news : List Leaf} {cs : List Utf8Char} (h : news.map Leaf.chars = pieces cs) :
    text news = cs := by
  rw [text, List.flatMap, h, flatten_pieces]

structure SplitNodes (cs b : List Utf8Char) (news tail : List Leaf) : Prop where
  news_chars : news.map Leaf.chars = pieces cs
  tail_chars : tail.map Leaf.chars = if b = [] then [] else [b]
  made : ∀ l ∈ news ++ tail, Made env l

theorem insertSplit_spec {r : Rope} {H : ℕ} {pre post : List Leaf} {e : Leaf} {iter : RopeIter}
    {a b : List Utf8Char} (cs : List Utf8Char) (hr : Repr r H (pre ++ e :: post)) (hchars : e.chars = a ++ b)
    (ha : a ≠ [] ∨ pre = []) (hit : IterAt iter (pre ++ [{ e with chars := a }])) :
    ∃ r' H' news tail,
      insertSplit env r e.addr iter a.length (utf8Bytes a).length (utf8Bytes cs) = some r' ∧
      SplitNodes env cs b news tail ∧
      Repr r' H' (raise H' (pre ++ [{ e with chars := a, slack := utf8Bytes b ++ e.slack }]) ++
        news ++ tail ++ post) := by
  set e' : Leaf := { e with chars := a, slack := utf8Bytes b ++ e.slack } with he'
  have hmem : e ∈ pre ++ e :: post := by simp
  have hbytes : e.bytes = utf8Bytes a ++ utf8Bytes b := by rw [Leaf.bytes, hchars, utf8Bytes_append]
  have hend : e.node.numBytes - (utf8Bytes a).length = (utf8Bytes b).length := by
    rw [Leaf.node, hbytes, List.length_append, Nat.add_sub_cancel_left]
  have hlen : e.chars.length - a.length = b.length := by
    rw [hchars, List.length_append, Nat.add_sub_cancel_left]
  have hit' : IterAt iter (pre ++ [e']) := by simpa [IterAt, Leaf.tower, he'] using hit
  rw [insertSplit, hr.live e hmem, hr.toLayout.first]
  simp only [Option.bind_eq_bind, Option.bind_some, hend, hlen]
  by_cases hb : b = []
  · subst hb
    rw [List.append_nil] at hchars
    have hee : e' = e := by
      rw [he', ← hchars]
      rfl
    rw [hee] at hit' ⊢
    obtain ⟨r', iter', H', news, hrun, hnews, hmade, hr', -⟩ :=
      insertPieces_spec env cs le_rfl (show Repr r H ((pre ++ [e]) ++ post) by simpa using hr) (by simp) hit'
    refine ⟨r', H', news, [], ?_, ⟨hnews, rfl, by simpa using hmade⟩, by simpa using hr'⟩
    simp only [utf8Bytes_nil, List.length_nil, if_true, Option.bind_some, hrun]
  · have hne : (utf8Bytes b).length ≠ 0 := by
      simpa [utf8Bytes_eq_nil] using hb
    have hroot : e.addr ≠ headPtr → a ≠ [] := by
      rcases ha with ha | rfl
      · exact fun _ => ha
      · exact fun h => absurd (hr.toLayout.tail_addr).1 h
    have hpt : PointsAt iter (pre ++ [e]) := hit'.pointsAt.resize rfl rfl
    -- the end is cut off, the pieces go in, and the end goes in again behind them
    obtain ⟨r₁, hcut, hr₁⟩ := cutTail_spec hr hpt hchars hroot
    rw [show pre ++ e' :: post = (pre ++ [e']) ++ post by simp] at hr₁
    obtain ⟨r₂, iter₂, H₂, news, hrun, hnews, hmade, hr₂, hit₂⟩ :=
      insertPieces_spec env cs le_rfl hr₁ (by simp) hit'
    have hnode : ∃ n, r₂.nodes e.addr = some n ∧
        n.str.drop (utf8Bytes a).length = utf8Bytes b ++ e.slack := by
      have hraised : ∃ l ∈ raise H₂ (pre ++ [e']), l.addr = e.addr ∧ l.chars = a ∧ l.slack = e'.slack := by
        cases pre with
        | nil => exact ⟨_, List.mem_cons_self, rfl, rfl, rfl⟩
        | cons x pre => exact ⟨e', by simp [raise], rfl, rfl, rfl⟩
      obtain ⟨l, hl, haddr, hla, hls⟩ := hraised
      refine ⟨l.node, haddr ▸ hr₂.live l (by simp [hl]), ?_⟩
      rw [Leaf.node, Leaf.bytes, hla, hls, List.drop_left]
    obtain ⟨n, hn, hdrop⟩ := hnode
    have hblen : (utf8Bytes b).length ≤ ropeNodeStrSize := by
      have := length_le_of_size (hr.size e hmem)
      have := hr.size e hmem
      rw [hbytes, List.length_append] at this
      omega
    have hxs₂ : raise H₂ (pre ++ [e']) ++ news ≠ [] := by
      have hne' : pre ++ [e'] ≠ [] := by simp
      simp [raise_ne_nil hne' H₂]
    obtain ⟨r₃, iter₃, H₃, new, hlast, hnew, hslack, hnh, hr₃, -⟩ :=
      insertAt_spec env e.slack hr₂ hxs₂ hit₂ hb hblen
    refine ⟨r₃, H₃, news, [new], ?_, ⟨hnews, by simp [hnew, hb], ?_⟩, ?_⟩
    · simp only [if_neg hne, hcut, Option.bind_some, hrun, hn, hdrop, hlast]
    · intro l hl
      rcases List.mem_append.1 hl with hl | hl
      · exact hmade l hl
      · obtain rfl := List.mem_singleton.1 hl
        exact ⟨hnh, by rw [hslack, Leaf.bytes, hnew]⟩
    · rw [raise_append (raise_ne_nil (by simp) H₂), raise_raise] at hr₃
      simpa using hr₃

end

end MutantC.Librope
