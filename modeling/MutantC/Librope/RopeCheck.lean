import MutantC.Librope.RopeDelete

/-! What can be read off a rope that holds a list of leaves: `ROPE_FOREACH` visits the leaves in
order, and every assertion of `_rope_check` holds. -/

namespace MutantC.Librope
open CBuffer Iteration SkipList

variable {r : Rope} {H : ℕ} {xs ys ls : List Leaf}

theorem ropeNodesFrom_eq (hr : Layout r H (xs ++ ys)) {fuel : ℕ} (hfuel : ys.length ≤ fuel) :
    ropeNodesFrom r fuel (ys.head?.map Leaf.addr) = some (ys.map Leaf.node) := by
  induction ys generalizing xs fuel with
  | nil => cases fuel <;> rfl
  | cons l ys ih =>
    cases fuel with
    | zero => simp at hfuel
    | succ fuel =>
      have hr' : Layout r H ((xs ++ [l]) ++ ys) := by simpa using hr
      have hrest := ih hr' (Nat.le_of_succ_le_succ hfuel)
      rw [List.head?_cons, Option.map_some, ropeNodesFrom, hr.live l (by simp), hr.first]
      simp only [Option.bind_eq_bind, Option.bind_some, hrest, List.map_cons]

theorem ropeForeach_eq (hr : Layout r H ls) : ropeForeach r = some (ls.map Leaf.node) := by
  have hlen := hr.length_le_brk
  obtain ⟨h, t, rfl, ha, -⟩ := hr.rooted
  have hr' : Layout r H ([] ++ h :: t) := hr
  have hwalk := ropeNodesFrom_eq hr' (Nat.le_succ_of_le hlen)
  rwa [List.head?_cons, Option.map_some, ha] at hwalk

theorem ropeContent_eq (hr : Layout r H ls) : ropeContent r = some (utf8Bytes (text ls)) := by
  rw [ropeContent, ropeForeach_eq hr, Option.map_some, List.flatMap_map]
  congr 1
  clear hr
  induction ls with
  | nil => rfl
  | cons l ls ih =>
    rw [List.flatMap_cons, ih, text_cons, utf8Bytes_append]
    simp [Leaf.node, Leaf.bytes]

/-- The walk has passed `xs`: at every level its iterator names the next tower of `ys`. -/
def Walk (iter : RopeIter) (H : ℕ) (xs ys : List Leaf) : Prop :=
  ∀ i < H, iter i = ⟨(text xs).length + (hop i (towers ys)).skip, (hop i (towers ys)).next⟩

theorem checkNode_eq {l : Leaf} {iter : RopeIter} (hr : Layout r H (xs ++ l :: ys))
    (hwalk : Walk iter H xs (l :: ys)) :
    ∃ iter', forRange 0 l.height (fun i (iter : RopeIter) => do
        guard ((iter i).next = some l.addr)
        guard ((iter i).skip = (text xs).length)
        let s ← r.getNext l.addr i
        RopeIter.set iter i ⟨(iter i).skip + s.skip, s.next⟩) iter = some iter' ∧
      Walk iter' H (xs ++ [l]) ys := by
  have hmem : l ∈ xs ++ l :: ys := by simp
  have hleH : l.height ≤ H := hr.height_le_of_mem hmem
  have hlinked := hr.linked
  rw [towers_append, towers_cons] at hlinked
  have hlink : ∀ i < l.height, r.nexts l.addr i = link i l.tower (towers ys) := fun i hi =>
    hlinked.at hi
  have hhere : ∀ i < l.height, iter i = ⟨(text xs).length, some l.addr⟩ := by
    intro i hi
    have hi' : i < l.tower.height := hi
    rw [hwalk i (hi.trans_le hleH), towers_cons, hop, if_pos hi']
    rfl
  have hloop := forRange_eq (σ := RopeIter) (b := fun i iter =>
      (guard ((iter i).next = some l.addr) : Option Unit).bind fun _ =>
      (guard ((iter i).skip = (text xs).length) : Option Unit).bind fun _ =>
      (r.getNext l.addr i).bind fun s => RopeIter.set iter i ⟨(iter i).skip + s.skip, s.next⟩)
    (fun k j => if j < k then
      ⟨(iter j).skip + (link j l.tower (towers ys)).skip, (link j l.tower (towers ys)).next⟩ else iter j)
    (Nat.zero_le l.height) ?_
  · refine ⟨_, hloop, fun i hi => ?_⟩
    simp only [text_append, text_cons, text_nil, List.append_nil, List.length_append]
    by_cases hil : i < l.height
    · rw [if_pos hil, hhere i hil, link]
      simp only [Leaf.tower, Nat.add_assoc]
    · have hil' : ¬ i < l.tower.height := hil
      rw [if_neg hil, hwalk i hi, towers_cons, hop, if_neg hil']
      simp only [Leaf.tower, Nat.add_assoc]
  · intro i _ hi
    have hmax : i < ropeMaxHeight := (hi.trans_le hleH).trans_le hr.height_le
    have hnext : (iter i).next = some l.addr := by rw [hhere i hi]
    have hskip : (iter i).skip = (text xs).length := by rw [hhere i hi]
    simp only [lt_irrefl, if_false, guard_bind hnext, guard_bind hskip,
      getNext_eq (hr.live l hmem) (show i < l.node.height from hi), Option.bind_some,
      RopeIter.set_eq hmax, hlink i hi]
    refine congrArg some (funext fun j => ?_)
    by_cases hj : j = i
    · subst hj
      simp
    · simp [hj, Nat.le_iff_lt_or_eq]

theorem checkLoop_eq {iter : RopeIter} (hr : Layout r H (xs ++ ys)) (hwalk : Walk iter H xs ys) {fuel : ℕ}
    (hfuel : ys.length ≤ fuel) :
    ∃ iter', checkLoop r fuel (ys.head?.map Leaf.addr) iter (utf8Bytes (text xs)).length
        (text xs).length =
      some (iter', (utf8Bytes (text (xs ++ ys))).length, (text (xs ++ ys)).length) ∧
      Walk iter' H (xs ++ ys) [] := by
  induction ys generalizing xs iter fuel with
  | nil =>
    rw [List.append_nil] at hr ⊢
    exact ⟨iter, by cases fuel <;> rfl, hwalk⟩
  | cons l ys ih =>
    cases fuel with
    | zero => simp at hfuel
    | succ fuel =>
      have hmem : l ∈ xs ++ l :: ys := by simp
      obtain ⟨iter₁, hnode, hwalk₁⟩ := checkNode_eq hr hwalk
      have hr' : Layout r H ((xs ++ [l]) ++ ys) := by simpa using hr
      obtain ⟨iter', hrest, hwalk'⟩ := ih hr' hwalk₁ (Nat.le_of_succ_le_succ hfuel)
      have hbytes : l.addr = headPtr ∨ l.node.numBytes ≠ 0 := by
        by_cases h : l.addr = headPtr
        · exact .inl h
        · exact .inr (Leaf.numBytes_ne_zero (hr.chars_ne l hmem h))
      have hheight : l.node.height ≤ ropeMaxHeight := (hr.height_le_of_mem hmem).trans hr.height_le
      have hcount : countBytesInUtf8 l.node.str l.chars.length = l.node.numBytes :=
        countBytesInUtf8_append l.chars l.slack
      refine ⟨iter', ?_, by simpa using hwalk'⟩
      rw [List.head?_cons, Option.map_some, checkLoop, hr.live l hmem, hr.first]
      simp only [Option.bind_eq_bind, Option.bind_some, guard_bind hbytes, guard_bind hheight,
        guard_bind hcount]
      simp only [text_append, text_cons, text_nil, List.append_nil, utf8Bytes_append,
        List.length_append, List.append_assoc, List.singleton_append] at hrest ⊢
      simp only [Option.bind_eq_bind] at hnode
      rw [show l.node.height = l.height from rfl, hnode, Option.bind_some]
      exact hrest

theorem ropeCheck_eq (hr : Repr r H ls) : ropeCheck r = some () := by
  have hpos := hr.pos
  have hlen := hr.length_le_brk
  obtain ⟨head, hhead, hH⟩ := hr.head_node
  have htotal : r.numChars ≤ r.numBytes := by
    rw [hr.numChars, hr.numBytes]
    exact length_le_utf8Bytes _
  have hskip : r.getNext headPtr (H - 1) = some ⟨r.numChars, none⟩ := by
    have hchars := hr.numChars
    obtain ⟨h, t, rfl, -, -⟩ := hr.rooted
    obtain ⟨ha, hh, ht⟩ := hr.toLayout.tail_addr
    -- at its top level the head alone has a link, and it spans the whole text
    have hi : H - 1 < h.height := by omega
    have hlow : ∀ u ∈ towers t, u.height ≤ H - 1 := by
      intro u hu
      obtain ⟨l, hl, rfl⟩ := List.mem_map.1 hu
      have := hr.height_lt l (List.mem_cons_of_mem _ hl) (ht l hl)
      show l.height ≤ _
      omega
    have hlink : r.nexts h.addr (H - 1) = link (H - 1) h.tower (towers t) := hr.linked.1 _ hi
    rw [← ha, getNext_eq (hr.live h List.mem_cons_self) hi, hlink, link, hop_lower hlow, hchars,
      spans_towers, text_cons, List.length_append]
    rfl
  have hstart : Walk (fun i => ⟨0, if i < H then some headPtr else none⟩) H [] ls := by
    intro i hi
    obtain ⟨h, t, rfl, ha, hh⟩ := hr.rooted
    have hi' : i < h.tower.height := hi.trans_eq hh.symm
    simp only [if_pos hi]
    rw [towers_cons, hop, if_pos hi', ← ha]
    rfl
  have hr' : Layout r H ([] ++ ls) := hr.toLayout
  obtain ⟨iter, hloop, hwalk⟩ := checkLoop_eq hr' hstart (Nat.le_succ_of_le hlen)
  have hfirst : ls.head?.map Leaf.addr = some headPtr := by
    obtain ⟨h, t, rfl, ha, -⟩ := hr.rooted
    exact congrArg some ha
  rw [hfirst] at hloop
  have hend := forRange_eq (σ := Unit) (b := fun i _ =>
      (guard ((iter i).next = none) : Option Unit).bind fun _ =>
        guard ((iter i).skip = (text ls).length)) (fun _ => ()) (Nat.zero_le H) fun i _ hi => by
    have hi' := hwalk i hi
    have hnext : (iter i).next = none := by rw [hi']; rfl
    have hskip' : (iter i).skip = (text ls).length := by rw [hi']; rfl
    rw [guard_bind hnext, guard, if_pos hskip']
    rfl
  rw [ropeCheck, hhead]
  simp only [Option.bind_eq_bind, Option.bind_some, hH, guard_bind (Nat.ne_of_gt hpos),
    guard_bind htotal, hskip]
  simp only [guard_bind trivial, text_nil, utf8Bytes_nil, List.length_nil, List.nil_append] at hloop ⊢
  rw [hloop, Option.bind_some]
  simp only [hend, Option.bind_some, guard_bind hr.numBytes]
  rw [guard, if_pos hr.numChars]
  rfl

end MutantC.Librope
