import MutantC.Librope.RopeRepr

/-! The search for a character position: it stops at the node that holds the position and leaves
the iterator at the prefix of the list that ends there. -/

namespace MutantC.Librope
open CBuffer Iteration SkipList

theorem RopeIter.set_eq {iter : RopeIter} {i : ℕ} (hi : i < ropeMaxHeight) (s : SkipNode) :
    iter.set i s = some fun j => if j = i then s else iter j := if_pos hi

theorem length_le_of_size {l : Leaf} (h : l.bytes.length + l.slack.length = ropeNodeStrSize) :
    l.chars.length ≤ ropeNodeStrSize := by
  have := length_le_utf8Bytes l.chars
  rw [Leaf.bytes] at h
  omega

theorem Leaf.numBytes_ne_zero {l : Leaf} (h : l.chars ≠ []) : l.node.numBytes ≠ 0 := by
  intro h0
  exact h (utf8Bytes_eq_nil.1 (List.eq_nil_of_length_eq_zero h0))

section Loop
variable {r : Rope} {H : ℕ}

theorem iterLoop_down {pre post : List Leaf} {e : Leaf} (hr : Repr r H (pre ++ e :: post))
    {h o fuel : ℕ} (iter : RopeIter) (hh : h < e.height)
    (hskip : o ≤ (link h e.tower (towers post)).skip) :
    iterLoop r (fuel + 1) e.addr h o iter =
      match h with
      | 0 => some (e.addr, o, fun j => if j = 0 then ⟨o, some e.addr⟩ else iter j)
      | k + 1 => iterLoop r fuel e.addr k o fun j => if j = k + 1 then ⟨o, some e.addr⟩ else iter j := by
  have hmem : e ∈ pre ++ e :: post := by simp
  have hlink : r.nexts e.addr h = link h e.tower (towers post) := by
    have hl := hr.linked
    rw [towers_append, towers_cons] at hl
    exact hl.at hh
  have hlt : ¬ (r.nexts e.addr h).skip < o := by rw [hlink]; omega
  have hmax : h < ropeMaxHeight := hh.trans_le ((hr.height_le_of_mem hmem).trans hr.height_le)
  rw [iterLoop, getNext_eq (hr.live e hmem) hh]
  simp only [Option.bind_eq_bind, Option.bind_some, if_neg hlt, RopeIter.set_eq hmax]
  cases h <;> rfl

theorem iterLoop_right {pre mid post : List Leaf} {e n : Leaf}
    (hr : Repr r H (pre ++ e :: (mid ++ n :: post))) {h o fuel : ℕ} (iter : RopeIter)
    (hh : h < e.height) (hn : h < n.height) (hmid : ∀ l ∈ mid, l.height ≤ h)
    (hskip : (text (e :: mid)).length < o) :
    iterLoop r (fuel + 1) e.addr h o iter =
      iterLoop r fuel n.addr h (o - (text (e :: mid)).length) iter := by
  have hmem : e ∈ pre ++ e :: (mid ++ n :: post) := by simp
  have hlow : ∀ t ∈ towers mid, t.height ≤ h := by
    intro t ht
    obtain ⟨l, hl, rfl⟩ := List.mem_map.1 ht
    exact hmid l hl
  have hlink : r.nexts e.addr h = ⟨(text (e :: mid)).length, some n.addr⟩ := by
    have hl := hr.linked
    rw [towers_append, towers_cons] at hl
    have hn' : h < n.tower.height := hn
    rw [show r.nexts e.addr h = _ from hl.at hh, link, towers_append, hop_append_of_lower hlow,
      towers_cons, hop, if_pos hn', spans_towers]
    simp [Leaf.tower]
  have hassert : e.addr = headPtr ∨ e.node.numBytes ≠ 0 := by
    by_cases hhead : e.addr = headPtr
    · exact .inl hhead
    · exact .inr (Leaf.numBytes_ne_zero (hr.chars_ne e hmem hhead))
  rw [iterLoop, getNext_eq (hr.live e hmem) hh, hlink]
  simp only [Option.bind_eq_bind, Option.bind_some, if_pos hskip, hr.live e hmem,
    guard_bind hassert]

/-- The leaves `ls` cut where the loop stops that looks for `o` from level `h` down: at the node that
holds the position, with the iterator at the prefix that ends there. -/
structure Stopped (ls : List Leaf) (h o : ℕ) (iter : RopeIter) (mid : List Leaf) (f : Leaf)
    (rest : List Leaf) (iter' : RopeIter) : Prop where
  split : ls = mid ++ f :: rest
  inside : o - (text mid).length ≤ f.chars.length
  behind : (text mid).length < o ∨ mid = []
  prior : before (towers ls) o = towers mid ++ [{ f.tower with span := o - (text mid).length }]
  low : ∀ j ≤ h, ∀ d p, pred j (before (towers ls) o) = some (d, p) → iter' j = ⟨d, some p⟩
  high : ∀ j, h < j → iter' j = iter j

theorem Stopped.here {post : List Leaf} {e : Leaf} {o : ℕ} (hle : o ≤ e.chars.length)
    (hpred : pred 0 (before (towers (e :: post)) o) = some (o, e.addr)) (iter : RopeIter) :
    Stopped (e :: post) 0 o iter [] e post fun j => if j = 0 then ⟨o, some e.addr⟩ else iter j := by
  refine ⟨rfl, by simpa using hle, .inr rfl, ?_, ?_, ?_⟩
  · have hspan : o ≤ e.tower.span := hle
    rw [towers_cons, before, if_pos hspan]
    simp
  · intro j hj d p hp
    obtain rfl : j = 0 := by omega
    rw [hpred] at hp
    obtain ⟨rfl, rfl⟩ := Prod.mk.inj (Option.some.inj hp)
    simp
  · intro j hj
    simp [Nat.ne_of_gt hj]

theorem Stopped.down {ls mid rest : List Leaf} {f : Leaf} {k o a : ℕ} {iter iter' : RopeIter}
    (hs : Stopped ls k o (fun j => if j = k + 1 then ⟨o, some a⟩ else iter j) mid f rest iter')
    (hpred : pred (k + 1) (before (towers ls) o) = some (o, a)) :
    Stopped ls (k + 1) o iter mid f rest iter' := by
  refine ⟨hs.split, hs.inside, hs.behind, hs.prior, ?_, ?_⟩
  · intro j hj d p hp
    by_cases hjk : j = k + 1
    · subst hjk
      rw [hpred] at hp
      obtain ⟨rfl, rfl⟩ := Prod.mk.inj (Option.some.inj hp)
      rw [hs.high (k + 1) (by omega), if_pos rfl]
    · exact hs.low j (by omega) d p hp
  · intro j hj
    rw [hs.high j (by omega), if_neg (by omega)]

theorem Stopped.right {mid mid' rest rest' : List Leaf} {e n f : Leaf} {h o : ℕ} {iter iter' : RopeIter}
    (hs : Stopped (n :: rest) h (o - (text (e :: mid)).length) iter mid' f rest' iter')
    (hlt : (text (e :: mid)).length < o) (hn : h < n.height) :
    Stopped (e :: (mid ++ n :: rest)) h o iter (e :: mid ++ mid') f rest' iter' := by
  have hprior : before (towers (e :: (mid ++ n :: rest))) o =
      towers (e :: mid) ++ before (towers (n :: rest)) (o - (text (e :: mid)).length) := by
    rw [show towers (e :: (mid ++ n :: rest)) = towers (e :: mid) ++ towers (n :: rest) by simp,
      before_append (by rwa [spans_towers]), spans_towers]
  have hsub : o - (text (e :: mid)).length - (text mid').length =
      o - (text (e :: mid ++ mid')).length := by
    rw [text_append, List.length_append]
    omega
  refine ⟨?_, hsub ▸ hs.inside, ?_, ?_, ?_, hs.high⟩
  · rw [List.cons_append, hs.split]
    simp
  · rcases hs.behind with hmid | rfl
    · left
      rw [text_append, List.length_append]
      omega
    · left
      simpa using hlt
  · rw [hprior, hs.prior, hsub, ← List.append_assoc, ← towers_append]
  · intro j hj d q hq
    rw [hprior] at hq
    have hseen : ∃ u ∈ before (towers (n :: rest)) (o - (text (e :: mid)).length), j < u.height := by
      have hsplit := hs.split
      rw [hs.prior]
      cases mid' with
      | nil =>
        obtain ⟨rfl, -⟩ := List.cons.inj hsplit
        exact ⟨_, List.mem_append_right _ List.mem_cons_self, hj.trans_lt hn⟩
      | cons m mid' =>
        obtain ⟨rfl, -⟩ := List.cons.inj hsplit
        exact ⟨n.tower, by simp, hj.trans_lt hn⟩
    obtain ⟨l, hl⟩ := pred_isSome hseen
    rw [pred_append_of_some hl] at hq
    exact hs.low j hj d q (hl.trans hq)

/-- A link that does not reach the position leads on, past lower towers, to one that starts before it. -/
theorem exists_next_of_skip {post : List Leaf} {e : Leaf} {h o : ℕ}
    (ho : o ≤ (text (e :: post)).length) (hskip : ¬ o ≤ (link h e.tower (towers post)).skip) :
    ∃ mid n rest, post = mid ++ n :: rest ∧ h < n.height ∧ (∀ l ∈ mid, l.height ≤ h) ∧
      (text (e :: mid)).length < o := by
  have hnext : (hop h (towers post)).next ≠ none := by
    intro hnone
    rw [link, hop_skip_of_next_none hnone, spans_towers] at hskip
    simp only [text_cons, List.length_append] at ho
    exact hskip (by simpa [Leaf.tower] using ho)
  obtain ⟨p, hp⟩ := Option.ne_none_iff_exists'.1 hnext
  obtain ⟨tmid, t, trest, htow, -, ht, hlow, hskipmid⟩ := exists_split_of_hop hp
  obtain ⟨mid, tail, rfl, rfl, htail⟩ := List.map_eq_append_iff.1 htow
  obtain ⟨n, rest, rfl, rfl, rfl⟩ := List.map_eq_cons_iff.1 htail
  refine ⟨mid, n, rest, rfl, ht, fun l hl => hlow l.tower (List.mem_map_of_mem hl), ?_⟩
  have hspan : spans (List.map Leaf.tower mid) = (text mid).length := spans_towers mid
  rw [link, hskipmid, hspan] at hskip
  simp only [Leaf.tower] at hskip
  simp only [text_cons, List.length_append]
  omega

theorem iterLoop_spec {pre post : List Leaf} {e : Leaf} (hr : Repr r H (pre ++ e :: post))
    {h o : ℕ} (fuel : ℕ) (iter : RopeIter) (hh : h < e.height)
    (ho : o ≤ (text (e :: post)).length) (hfuel : post.length + h < fuel) :
    ∃ mid f rest iter',
      iterLoop r fuel e.addr h o iter = some (f.addr, o - (text mid).length, iter') ∧
      Stopped (e :: post) h o iter mid f rest iter' := by
  induction fuel generalizing pre post e h o iter with
  | zero => omega
  | succ fuel ih =>
    by_cases hskip : o ≤ (link h e.tower (towers post)).skip
    · -- down: level `h` is settled, and at level 0 the node holds the position
      have hpred : pred h (before (towers (e :: post)) o) = some (o, e.addr) := pred_before hh hskip
      rw [iterLoop_down hr iter hh hskip]
      cases h with
      | zero =>
        have hzero : (hop 0 (towers post)).skip = 0 := by
          cases post with
          | nil => rfl
          | cons l post =>
            have hpos : 0 < l.tower.height := hr.height_pos l (by simp)
            rw [towers_cons, hop, if_pos hpos]
        rw [link, hzero] at hskip
        exact ⟨[], e, post, _, rfl, Stopped.here hskip hpred iter⟩
      | succ k =>
        obtain ⟨mid, f, rest, iter', hrun, hs⟩ :=
          ih hr (h := k) (o := o) (fun j => if j = k + 1 then ⟨o, some e.addr⟩ else iter j)
            (by omega) ho (by omega)
        exact ⟨mid, f, rest, iter', hrun, hs.down hpred⟩
    · -- right: the link leads to a tower that still starts before the position
      obtain ⟨mid, n, rest, rfl, hn, hlow, hlt⟩ := exists_next_of_skip ho hskip
      have hr' : Repr r H ((pre ++ e :: mid) ++ n :: rest) := by simpa using hr
      have hlen : (text (e :: (mid ++ n :: rest))).length =
          (text (e :: mid)).length + (text (n :: rest)).length := by
        simp only [text_cons, text_append, List.length_append]
        omega
      rw [iterLoop_right hr iter hh hn hlow hlt]
      obtain ⟨mid', f, rest', iter', hrun, hs⟩ :=
        ih hr' (h := h) (o := o - (text (e :: mid)).length) iter hn (by omega)
          (by simp only [List.length_append, List.length_cons] at hfuel; omega)
      refine ⟨e :: mid ++ mid', f, rest', iter', ?_, hs.right hlt hn⟩
      rw [hrun, text_append, List.length_append, Nat.sub_sub]

end Loop

theorem iterAtCharPos_spec {r : Rope} {H : ℕ} {ls : List Leaf} (hr : Repr r H ls) {pos : ℕ}
    (hpos : pos ≤ (text ls).length) :
    ∃ pre e post a b iter, ls = pre ++ e :: post ∧ e.chars = a ++ b ∧
      (text pre ++ a).length = pos ∧ (a ≠ [] ∨ pre = []) ∧
      iterAtCharPos r pos = some (e.addr, iter) ∧ iter 0 = ⟨a.length, some e.addr⟩ ∧
      IterAt iter (pre ++ [{ e with chars := a }]) := by
  obtain ⟨h, t, rfl, haddr, rfl⟩ := hr.rooted
  have hmem : h ∈ h :: t := List.mem_cons_self
  have hheight := hr.height_pos h hmem
  have hlen := hr.length_le_brk
  have hmax := hr.height_le
  obtain ⟨mid, f, rest, iter, hrun, heq, hle, hmid, hbefore, hlow, -⟩ :=
    iterLoop_spec (show Repr r h.height ([] ++ h :: t) from hr) (h := h.height - 1) (o := pos) (r.brk + ropeMaxHeight + 1)
      (fun _ => ⟨0, none⟩) (by omega) hpos (by simp only [List.length_cons] at hlen; omega)
  have hf : f ∈ h :: t := heq ▸ (by simp)
  have htake : (f.chars.take (pos - (text mid).length)).length = pos - (text mid).length :=
    List.length_take_of_le hle
  -- the towers seen before the position are those of the prefix, with the node cut there
  have htower : before (towers (h :: t)) pos =
      towers (mid ++ [{ f with chars := f.chars.take (pos - (text mid).length) }]) := by
    rw [hbefore, towers_append]
    simp [Leaf.tower, htake]
  have hlow' : ∀ l ∈ mid ++ [{ f with chars := f.chars.take (pos - (text mid).length) }],
      l.height ≤ h.height := by
    intro l hl
    rcases List.mem_append.1 hl with hl | hl
    · exact hr.height_le_of_mem (heq ▸ List.mem_append_left _ hl)
    · obtain rfl := List.mem_singleton.1 hl
      exact hr.height_le_of_mem (l := f) hf
  have hit : IterAt iter (mid ++ [{ f with chars := f.chars.take (pos - (text mid).length) }]) := by
    intro i d p hp
    have hi := lt_of_pred hlow' hp
    rw [← htower] at hp
    exact hlow i (by omega) d p hp
  have hzero : iter 0 = ⟨pos - (text mid).length, some f.addr⟩ := by
    refine hit 0 _ _ ?_
    rw [towers_append, towers_cons, towers_nil, pred_snoc, if_pos]
    · simp [Leaf.tower, htake]
    · exact hr.height_pos f hf
  refine ⟨mid, f, rest, f.chars.take (pos - (text mid).length),
    f.chars.drop (pos - (text mid).length), iter, heq, (List.take_append_drop _ _).symm, ?_, ?_, ?_,
    by rw [htake, hzero], hit⟩
  · rw [List.length_append, htake]
    rcases hmid with hmid | rfl
    · omega
    · simp
  · rcases hmid with hmid | rfl
    · left
      intro hnil
      rw [hnil] at htake
      simp only [List.length_nil] at htake
      omega
    · exact .inr rfl
  · have hsize := length_le_of_size (hr.size f hf)
    have hhead : r.nodes headPtr = some h.node := haddr ▸ hr.live h hmem
    have hrun' : iterLoop r (r.brk + ropeMaxHeight + 1) headPtr (h.node.height - 1) pos
        (fun _ => ⟨0, none⟩) = some (f.addr, pos - (text mid).length, iter) := haddr ▸ hrun
    have hzero' : (iter 0).next = some f.addr := by rw [hzero]
    rw [iterAtCharPos, hhead]
    simp only [Option.bind_eq_bind, Option.bind_some, guard_bind (hr.numChars ▸ hpos), hrun',
      guard_bind ((Nat.le_trans hle hsize)), guard_bind hzero']

end MutantC.Librope
