import MutantC.Classes.ClassDefs

/-! The ledger of the trampolines: exactly one, not yet released, in each curried field of each live
object. It is kept by the runs that start the root allocator once and end terminals and fancyrl objects
only; the other two classes miss a field when they are destroyed. -/

namespace MutantC.Classes
open Handles Iteration

def curried : Class → List Method
  | .gcAllocator => [.destroy, .prealloc, .alloc, .realloc, .allocAtomic, .free, .new, .delete]
  | .string => [.destroy, .getLength, .set, .insertCstrAt, .appendCstr, .print]
  | .posixTerminal =>
    [.destroy, .setupTerm, .restoreTerm, .sigHandle, .readKey, .writeChar, .writeCstr, .getTermSize,
      .getCurPos]
  | .fancyrl => [.destroy]

/-- The trampolines not released are those in the curried fields of the live objects, each in the field
it was made for; none is released twice; an object that is not live has no method left. -/
structure Ledger (h : Heap) : Prop where
  exact : Exact h.fields
  full : ∀ o c, h.cls o = some c → h.live o = true → ∀ m, h.fields.slot (o, m) ≠ none ↔ m ∈ curried c
  cleared : ∀ o, h.live o = false → ∀ m, h.fields.slot (o, m) = none

theorem Ledger.released_of_not_live {h : Heap} (hl : Ledger h) {o t : ℕ} {m : Method}
    (hlive : h.live o = false) (ht : h.fields.acquiredFor t = some (o, m)) : t ∈ h.fields.released := by
  by_contra hrel
  have hslot := hl.exact.owned t (o, m) ht hrel
  rw [hl.cleared o hlive m] at hslot
  cases hslot

structure WellFormed (h : Heap) : Prop where
  cls_lt : ∀ o, h.cls o ≠ none → o < h.nextObject
  cls_of_live : ∀ o, h.live o = true → h.cls o ≠ none
  root : h.cls 0 = some .gcAllocator

/-- What a caller can ask for: `new` and `delete` of a live allocator, the latter for a live object, a
terminal after its `setup_term`. -/
def Possible (h : Heap) : Op → Prop
  | .initRoot => True
  | .new a _ => h.live a = true ∧ h.cls a = some .gcAllocator
  | .delete a o =>
    (h.live a = true ∧ h.cls a = some .gcAllocator) ∧ h.live o = true ∧
      (h.cls o = some .posixTerminal → h.hasTk o = true)
  | .setupTerm o => h.live o = true ∧ h.cls o = some .posixTerminal

/-- The root allocator is started once, and only a terminal or a fancyrl object is deleted. -/
def KeepsLedger (h : Heap) : Op → Prop
  | .initRoot => h.live 0 = false
  | .new _ _ => True
  | .delete _ o => h.cls o = some .posixTerminal ∨ h.cls o = some .fancyrl
  | .setupTerm _ => True

theorem wellFormed_start : WellFormed startHeap := by
  constructor
  · intro o ho
    by_contra hge
    have hne : o ≠ 0 := fun h => hge (h ▸ Nat.zero_lt_one)
    exact ho (show Function.update (fun _ => none) 0 (some Class.gcAllocator) o = none from
      Function.update_of_ne hne _ _)
  · exact fun o ho => absurd ho Bool.false_ne_true
  · rfl

theorem ledger_start : Ledger startHeap :=
  ⟨exact_emptyTable, fun _ _ _ hlive => absurd hlive Bool.false_ne_true, fun _ _ _ => rfl⟩

section Init
variable {h : Heap} {o : ℕ}

theorem classInit_eq (c : Class) (this : ℕ) (h : Heap) :
    classInit c this h = curryFields this (curried c) h := by
  cases c <;> rfl

theorem nodup_curried (c : Class) : (curried c).Nodup := by
  cases c <;> decide

theorem nodup_fields (o : ℕ) {ms : List Method} (h : ms.Nodup) :
    (ms.map fun m => (o, m)).Nodup :=
  h.map fun _ _ heq => (Prod.mk.inj heq).2

theorem mem_fields {o o' : ℕ} {m : Method} {ms : List Method} :
    (o', m) ∈ ms.map (fun m => (o, m)) ↔ o' = o ∧ m ∈ ms := by
  simp [and_comm, eq_comm]

theorem Ledger.curryFields {c : Class} {cls' : ℕ → Option Class} {live' hasTk' : ℕ → Bool} {n : ℕ}
    (hl : Ledger h) (hdead : h.live o = false) (hcls : cls' o = some c) (hlive : live' o = true)
    (hcls' : ∀ o', o' ≠ o → cls' o' = h.cls o') (hlive' : ∀ o', o' ≠ o → live' o' = h.live o') :
    Ledger ⟨acquireAll h.fields ((curried c).map fun m => (o, m)), cls', live', hasTk', n⟩ := by
  constructor
  · apply hl.exact.acquireAll (nodup_fields o (nodup_curried c))
    rintro ⟨o', m⟩ hk
    rw [(mem_fields.1 hk).1]
    exact hl.cleared o hdead m
  · intro o' c' hc' hlive'' m
    change (acquireAll h.fields ((curried c).map fun m => (o, m))).slot (o', m) ≠ none ↔ m ∈ curried c'
    change cls' o' = some c' at hc'
    change live' o' = true at hlive''
    rcases eq_or_ne o' o with rfl | hne
    · obtain rfl := Option.some.inj (hcls.symm.trans hc')
      by_cases hm : m ∈ curried c
      · obtain ⟨t, ht, -⟩ := slot_acquireAll_of_mem (T := h.fields) (mem_fields.2 ⟨rfl, hm⟩)
        rw [ht]
        exact iff_of_true (Option.some_ne_none t) hm
      · rw [slot_acquireAll_of_notMem fun hmem => hm (mem_fields.1 hmem).2, hl.cleared o' hdead m]
        exact iff_of_false (fun hnone => hnone rfl) hm
    · rw [slot_acquireAll_of_notMem fun hmem => hne (mem_fields.1 hmem).1]
      exact hl.full o' c' ((hcls' o' hne).symm.trans hc') ((hlive' o' hne).symm.trans hlive'') m
  · intro o' hdead' m
    change live' o' = false at hdead'
    have hne : o' ≠ o := by
      rintro rfl
      rw [hlive] at hdead'
      cases hdead'
    exact (slot_acquireAll_of_notMem fun hmem => hne (mem_fields.1 hmem).1).trans
      (hl.cleared o' ((hlive' o' hne).symm.trans hdead') m)

end Init

section Step
variable {h h' : Heap} {a o : ℕ} {c : Class}

theorem Ledger.call (hl : Ledger h) (hlive : h.live o = true) (hcls : h.cls o = some c) {m : Method}
    (hm : m ∈ curried c) : call o m h = some () := by
  obtain ⟨t, ht⟩ := Option.ne_none_iff_exists'.1 ((hl.full o c hcls hlive m).2 hm)
  unfold Classes.call
  rw [ht]
  exact if_pos (hl.exact.held _ t ht).2

theorem initRoot_ledger_iff (hl : Ledger h) (hw : WellFormed h) :
    Ledger (initRootAllocator h) ↔ h.live 0 = false := by
  constructor
  · intro hl'
    by_contra hlive
    rw [Bool.not_eq_false] at hlive
    have hslot := (hl.full 0 _ hw.root hlive .destroy).2 (by decide)
    refine not_exact_acquireAll hl.exact (mem_fields.2 ⟨rfl, ?_⟩) hslot hl'.exact
    exact List.mem_cons_self
  · intro hdead
    exact hl.curryFields hdead hw.root (Function.update_self _ _ _) (fun _ _ => rfl)
      fun o' hne => Function.update_of_ne hne _ _

theorem gcAllocatorClassNew_some (hnew : gcAllocatorClassNew a c h = some h') :
    h' = ⟨acquireAll h.fields ((curried c).map fun m => (h.nextObject, m)),
      Function.update h.cls h.nextObject (some c), Function.update h.live h.nextObject true, h.hasTk,
      h.nextObject + 1⟩ := by
  unfold gcAllocatorClassNew at hnew
  obtain ⟨-, -, hnew⟩ := Option.bind_eq_some_iff.1 hnew
  rw [← Option.some.inj hnew, classInit_eq]
  rfl

theorem gcAllocatorClassNew_of_step (hnew : step h (.new a c) = some h') :
    gcAllocatorClassNew a c h = some h' := by
  obtain ⟨-, -, hnew⟩ := Option.bind_eq_some_iff.1 hnew
  exact hnew

theorem new_ledger (hl : Ledger h) (hw : WellFormed h) (hlive : h.live a = true)
    (hcls : h.cls a = some .gcAllocator) (c : Class) :
    ∃ h', step h (.new a c) = some h' ∧ Ledger h' := by
  have hnew : Classes.call a .new h = some () := hl.call hlive hcls (by decide)
  have halloc : Classes.call a .alloc h = some () := hl.call hlive hcls (by decide)
  have hfresh : h.live h.nextObject = false := by
    by_contra hlive'
    rw [Bool.not_eq_false] at hlive'
    exact lt_irrefl _ (hw.cls_lt _ (hw.cls_of_live _ hlive'))
  have hstep : ∃ h', gcAllocatorClassNew a c h = some h' := by
    unfold gcAllocatorClassNew
    rw [halloc]
    exact ⟨_, rfl⟩
  obtain ⟨h', hh'⟩ := hstep
  refine ⟨h', ?_, ?_⟩
  · rw [step, hnew, Option.bind_some, hh']
  · rw [gcAllocatorClassNew_some hh']
    exact hl.curryFields hfresh (Function.update_self _ _ _) (Function.update_self _ _ _)
      (fun o' hne => Function.update_of_ne hne _ _) fun o' hne => Function.update_of_ne hne _ _

theorem setupTerm_ledger (hl : Ledger h) (hlive : h.live o = true)
    (hcls : h.cls o = some .posixTerminal) :
    ∃ h', step h (.setupTerm o) = some h' ∧ Ledger h' := by
  have hsetup : Classes.call o .setupTerm h = some () := hl.call hlive hcls (by decide)
  have hsize : Classes.call o .getTermSize h = some () := hl.call hlive hcls (by decide)
  refine ⟨{ h with hasTk := Function.update h.hasTk o true }, ?_, hl.exact, hl.full, hl.cleared⟩
  rw [step, hsetup, Option.bind_some, posixTerminalClassSetupTerm, hsize]
  rfl

/-! ### Deleting -/

/-- What `destroy` and then `delete` do to the fields: the one whose trampoline is released, and the one
that is set to NULL. -/
def uncurried : Class → List (Method × Method)
  | .gcAllocator =>
    [(.destroy, .destroy), (.prealloc, .prealloc), (.alloc, .alloc), (.realloc, .realloc),
      (.free, .free), (.new, .free), (.delete, .free), (.destroy, .destroy)]
  | .string =>
    [(.getLength, .getLength), (.insertCstrAt, .insertCstrAt), (.appendCstr, .insertCstrAt),
      (.set, .set), (.print, .print), (.destroy, .destroy)]
  | .posixTerminal =>
    [(.setupTerm, .setupTerm), (.restoreTerm, .restoreTerm), (.sigHandle, .sigHandle),
      (.getTermSize, .getTermSize), (.getCurPos, .getCurPos), (.readKey, .readKey),
      (.writeChar, .writeChar), (.writeCstr, .writeCstr), (.destroy, .destroy)]
  | .fancyrl => [(.destroy, .destroy)]

theorem mem_uncurried_fields {o' : ℕ} {m : Method} {ps : List (Method × Method)} :
    (o', m) ∈ (ps.map fun p => ((o, p.1), (o, p.2))).map Prod.snd ↔ o' = o ∧ m ∈ ps.map Prod.snd := by
  rw [List.map_map, ← mem_fields, List.map_map]
  rfl

theorem uncurryFields_of_classDestroy {h₁ : Heap} (hd : classDestroy c o h = some h₁) :
    uncurryFields o [(.destroy, .destroy)] h₁ = uncurryFields o (uncurried c) h := by
  cases c with
  | gcAllocator => rw [← Option.some.inj hd]; rfl
  | string => rw [← Option.some.inj hd]; rfl
  | posixTerminal =>
    rw [classDestroy, posixTerminalClassDestroy] at hd
    split_ifs at hd
    rw [← Option.some.inj hd]
    rfl
  | fancyrl => rw [← Option.some.inj hd]; rfl

theorem exists_classDestroy (htk : c = .posixTerminal → h.hasTk o = true) :
    ∃ h₁, classDestroy c o h = some h₁ := by
  cases c with
  | gcAllocator => exact ⟨_, rfl⟩
  | string => exact ⟨_, rfl⟩
  | posixTerminal => exact ⟨_, if_pos (htk rfl)⟩
  | fancyrl => exact ⟨_, rfl⟩

theorem gcAllocatorClassDelete_some (hdel : gcAllocatorClassDelete a o h = some h') :
    ∃ c, h.cls o = some c ∧
      h' = { uncurryFields o (uncurried c) h with live := Function.update h.live o false } := by
  unfold gcAllocatorClassDelete at hdel
  obtain ⟨-, -, hdel⟩ := Option.bind_eq_some_iff.1 hdel
  obtain ⟨c, hc, hdel⟩ := Option.bind_eq_some_iff.1 hdel
  obtain ⟨h₁, hdestroy, hdel⟩ := Option.bind_eq_some_iff.1 hdel
  obtain ⟨-, -, hdel⟩ := Option.bind_eq_some_iff.1 hdel
  rw [uncurryFields_of_classDestroy hdestroy] at hdel
  exact ⟨c, hc, (Option.some.inj hdel).symm⟩

theorem slot_uncurryFields_of_ne {o' : ℕ} (hne : o' ≠ o) (ps : List (Method × Method)) (m : Method) :
    (uncurryFields o ps h).fields.slot (o', m) = h.fields.slot (o', m) :=
  slot_releaseAll_of_notMem fun hmem => hne (mem_uncurried_fields.1 hmem).1

theorem slot_uncurryFields_of_notMem {ps : List (Method × Method)} {m : Method}
    (hm : m ∉ ps.map Prod.snd) : (uncurryFields o ps h).fields.slot (o, m) = h.fields.slot (o, m) :=
  slot_releaseAll_of_notMem fun hmem => hm (mem_uncurried_fields.1 hmem).2

theorem slot_uncurryFields_of_mem {ps : List (Method × Method)} {m : Method}
    (hm : m ∈ ps.map Prod.snd) : (uncurryFields o ps h).fields.slot (o, m) = none :=
  slot_releaseAll_of_mem (mem_uncurried_fields.2 ⟨rfl, hm⟩)

theorem exact_uncurryFields (he : Exact h.fields) {ps : List (Method × Method)}
    (hps : ∀ p ∈ ps, p.1 = p.2) : Exact (uncurryFields o ps h).fields := by
  apply he.releaseAll
  intro q hq
  obtain ⟨p, hp, rfl⟩ := List.mem_map.1 hq
  rw [hps p hp]

theorem not_ledger_of_kept (hl : Ledger h) (hlive : h.live o = true) (hcls : h.cls o = some c)
    {m : Method} (hm : m ∈ curried c) (hkept : m ∉ (uncurried c).map Prod.snd)
    (hdel : gcAllocatorClassDelete a o h = some h') : ¬ Ledger h' := by
  intro hl'
  obtain ⟨c', hc', rfl⟩ := gcAllocatorClassDelete_some hdel
  obtain rfl := Option.some.inj (hcls.symm.trans hc')
  have hnull := hl'.cleared o (Function.update_self _ _ _) m
  exact (hl.full o c hcls hlive m).2 hm ((slot_uncurryFields_of_notMem hkept).symm.trans hnull)

theorem Ledger.uncurryFields (hl : Ledger h) (hlive : h.live o = true) (hcls : h.cls o = some c)
    (hpaired : ∀ p ∈ uncurried c, p.1 = p.2) (hall : ∀ m ∈ curried c, m ∈ (uncurried c).map Prod.snd) :
    Ledger { Classes.uncurryFields o (uncurried c) h with live := Function.update h.live o false } := by
  constructor
  · exact exact_uncurryFields hl.exact hpaired
  · intro o' c' hc' hlive' m
    have hne : o' ≠ o := by
      rintro rfl
      exact Bool.false_ne_true ((Function.update_self o' false h.live).symm.trans hlive')
    have hlive₀ : h.live o' = true := (Function.update_of_ne hne _ _).symm.trans hlive'
    rw [← hl.full o' c' hc' hlive₀ m]
    exact not_congr (Eq.congr_left (slot_uncurryFields_of_ne hne _ m))
  · intro o' hdead m
    rcases eq_or_ne o' o with rfl | hne
    · by_cases hm : m ∈ (uncurried c).map Prod.snd
      · exact slot_uncurryFields_of_mem hm
      · refine (slot_uncurryFields_of_notMem hm).trans ?_
        exact not_not.1 (mt (hl.full o' c hcls hlive m).1 fun hmem => hm (hall m hmem))
    · have hdead₀ : h.live o' = false := (Function.update_of_ne hne _ _).symm.trans hdead
      exact (slot_uncurryFields_of_ne hne _ m).trans (hl.cleared o' hdead₀ m)

theorem delete_ledger (hl : Ledger h) (halive : h.live a = true) (hacls : h.cls a = some .gcAllocator)
    (hlive : h.live o = true) (hcls : h.cls o = some c) (hne : a ≠ o)
    (htk : c = .posixTerminal → h.hasTk o = true)
    (hpaired : ∀ p ∈ uncurried c, p.1 = p.2) (hall : ∀ m ∈ curried c, m ∈ (uncurried c).map Prod.snd) :
    ∃ h', step h (.delete a o) = some h' ∧ Ledger h' := by
  have hdelete : Classes.call a .delete h = some () := hl.call halive hacls (by decide)
  have hdestroy : Classes.call o .destroy h = some () :=
    hl.call hlive hcls (by cases c <;> exact List.mem_cons_self)
  obtain ⟨h₁, hh₁⟩ := exists_classDestroy htk
  have hfields := uncurryFields_of_classDestroy hh₁
  -- the allocator's own `free` is called when the object's fields are gone
  have hfree : Classes.call a .free (Classes.uncurryFields o (uncurried c) h) = some () := by
    obtain ⟨t, ht⟩ := Option.ne_none_iff_exists'.1 ((hl.full a _ hacls halive .free).2 (by decide))
    have ht' := (slot_uncurryFields_of_ne hne (uncurried c) .free).trans ht
    unfold Classes.call
    rw [ht']
    exact if_pos ((exact_uncurryFields hl.exact hpaired).held _ t ht').2
  have hdel : ∃ h', gcAllocatorClassDelete a o h = some h' := by
    unfold gcAllocatorClassDelete
    simp only [hdestroy, hcls, hh₁, hfields, hfree, Option.bind_eq_bind, Option.bind_some]
    exact ⟨_, rfl⟩
  obtain ⟨h', hh'⟩ := hdel
  refine ⟨h', ?_, ?_⟩
  · rw [step, hdelete, Option.bind_some, hh']
  · obtain ⟨c', hc', rfl⟩ := gcAllocatorClassDelete_some hh'
    obtain rfl := Option.some.inj (hcls.symm.trans hc')
    exact hl.uncurryFields hlive hcls hpaired hall

theorem gcAllocatorClassDelete_of_step (hdel : step h (.delete a o) = some h') :
    gcAllocatorClassDelete a o h = some h' := by
  obtain ⟨-, -, hdel⟩ := Option.bind_eq_some_iff.1 hdel
  exact hdel

/-- `alloc_atomic` is left out of the allocator's `destroy`, and NULL does not reach `append_cstr`. -/
theorem delete_ledger_iff (hl : Ledger h) (hw : WellFormed h) (hd : Possible h (.delete a o)) :
    (∃ h', step h (.delete a o) = some h' ∧ Ledger h') ↔ KeepsLedger h (.delete a o) := by
  obtain ⟨⟨halive, hacls⟩, hlive, htk⟩ := hd
  obtain ⟨c, hcls⟩ := Option.ne_none_iff_exists'.1 (hw.cls_of_live o hlive)
  have hne : c ≠ .gcAllocator → a ≠ o := by
    rintro hc rfl
    exact hc (Option.some.inj (hcls.symm.trans hacls))
  change _ ↔ h.cls o = some .posixTerminal ∨ h.cls o = some .fancyrl
  rw [hcls]
  cases c with
  | gcAllocator =>
    refine iff_of_false ?_ (by decide)
    rintro ⟨h', hstep, hl'⟩
    exact not_ledger_of_kept hl hlive hcls (m := .allocAtomic) (by decide) (by decide)
      (gcAllocatorClassDelete_of_step hstep) hl'
  | string =>
    refine iff_of_false ?_ (by decide)
    rintro ⟨h', hstep, hl'⟩
    exact not_ledger_of_kept hl hlive hcls (m := .appendCstr) (by decide) (by decide)
      (gcAllocatorClassDelete_of_step hstep) hl'
  | posixTerminal =>
    refine iff_of_true ?_ (Or.inl rfl)
    exact delete_ledger hl halive hacls hlive hcls (hne (by decide)) (fun _ => htk hcls)
      (by decide) (by decide)
  | fancyrl =>
    refine iff_of_true ?_ (Or.inr rfl)
    exact delete_ledger hl halive hacls hlive hcls (hne (by decide)) (fun hc => by cases hc)
      (by decide) (by decide)

theorem step_ledger_iff (hl : Ledger h) (hw : WellFormed h) {op : Op} (hd : Possible h op) :
    (∃ h', step h op = some h' ∧ Ledger h') ↔ KeepsLedger h op := by
  cases op with
  | initRoot =>
    refine Iff.trans ?_ (initRoot_ledger_iff hl hw)
    exact ⟨fun ⟨_, hs, hl'⟩ => Option.some.inj hs ▸ hl', fun hl' => ⟨_, rfl, hl'⟩⟩
  | new a c => exact iff_of_true (new_ledger hl hw hd.1 hd.2 c) trivial
  | delete a o => exact delete_ledger_iff hl hw hd
  | setupTerm o => exact iff_of_true (setupTerm_ledger hl hd.1 hd.2) trivial

/-! ### Well-formedness -/

theorem WellFormed.step (hw : WellFormed h) {op : Op} (hs : step h op = some h') : WellFormed h' := by
  cases op with
  | initRoot =>
    rw [← Option.some.inj hs]
    refine ⟨hw.cls_lt, fun o hlive => ?_, hw.root⟩
    rcases eq_or_ne o 0 with rfl | hne
    · exact fun hnone => Option.some_ne_none _ (hw.root.symm.trans hnone)
    · exact hw.cls_of_live o ((Function.update_of_ne hne _ _).symm.trans hlive)
  | new a c =>
    rw [gcAllocatorClassNew_some (gcAllocatorClassNew_of_step hs)]
    have hroot : 0 < h.nextObject :=
      hw.cls_lt 0 fun hnone => Option.some_ne_none _ (hw.root.symm.trans hnone)
    refine ⟨fun o hcls => ?_, fun o hlive => ?_, ?_⟩
    · rcases eq_or_ne o h.nextObject with rfl | hne
      · exact Nat.lt_succ_self _
      · have hcls' := (Function.update_of_ne hne (some c) h.cls).symm.trans_ne hcls
        exact Nat.lt_succ_of_lt (hw.cls_lt o hcls')
    · rcases eq_or_ne o h.nextObject with rfl | hne
      · exact (Function.update_self _ _ _).trans_ne (Option.some_ne_none c)
      · refine (Function.update_of_ne hne _ _).trans_ne (hw.cls_of_live o ?_)
        exact (Function.update_of_ne hne _ _).symm.trans hlive
    · exact (Function.update_of_ne hroot.ne _ _).trans hw.root
  | delete a o =>
    obtain ⟨c, -, rfl⟩ := gcAllocatorClassDelete_some (gcAllocatorClassDelete_of_step hs)
    refine ⟨hw.cls_lt, fun o' hlive => ?_, hw.root⟩
    have hne : o' ≠ o := by
      rintro rfl
      exact Bool.false_ne_true ((Function.update_self o' false h.live).symm.trans hlive)
    exact hw.cls_of_live o' ((Function.update_of_ne hne _ _).symm.trans hlive)
  | setupTerm o =>
    obtain ⟨-, -, hs⟩ := Option.bind_eq_some_iff.1 hs
    obtain ⟨-, -, hs⟩ := Option.bind_eq_some_iff.1 hs
    rw [← Option.some.inj hs]
    exact ⟨hw.cls_lt, hw.cls_of_live, hw.root⟩

end Step

theorem possible_new_delete {c : Class} (hne : c ≠ .posixTerminal) :
    Meets step Possible startHeap [.initRoot, .new 0 c, .delete 0 1] := by
  refine ⟨trivial, fun h₁ hs₁ => ?_⟩
  obtain rfl := Option.some.inj hs₁
  refine ⟨⟨rfl, rfl⟩, fun h₂ hs₂ => ?_⟩
  rw [gcAllocatorClassNew_some (gcAllocatorClassNew_of_step hs₂)]
  refine ⟨⟨⟨rfl, rfl⟩, rfl, fun hc => ?_⟩, fun _ _ => trivial⟩
  exact absurd (Option.some.inj hc) hne

/-- Along a run of possible calls the ledger is kept exactly when the root allocator is started once and
only terminals and fancyrl objects are deleted. -/
theorem ledger_iff {ops : List Op} (hops : Meets step Possible startHeap ops) :
    Along step Ledger startHeap ops ↔ Meets step KeepsLedger startHeap ops :=
  along_iff_meets_of (fun _ _ hw hl hd => step_ledger_iff hl hw hd)
    (fun _ _ _ hw _ hs _ => hw.step hs) wellFormed_start ledger_start hops

theorem ledger_iff_fancyrl :
    Along step Ledger startHeap [.initRoot, .new 0 .fancyrl, .delete 0 1] ↔
      Meets step KeepsLedger startHeap [.initRoot, .new 0 .fancyrl, .delete 0 1] :=
  ledger_iff (possible_new_delete (by decide))

/-- Deleting a string leaves its `append_cstr`; deleting an allocator leaves its `alloc_atomic`, and the
trampoline with it; a second start of the root allocator loses the trampolines of the first. -/
theorem methods_left_behind :
    (Meets step Possible startHeap [.initRoot, .new 0 .string, .delete 0 1] ∧
      ¬ Along step Ledger startHeap [.initRoot, .new 0 .string, .delete 0 1]) ∧
    (Meets step Possible startHeap [.initRoot, .new 0 .gcAllocator, .delete 0 1] ∧
      ¬ Along step Ledger startHeap [.initRoot, .new 0 .gcAllocator, .delete 0 1]) ∧
    Meets step Possible startHeap [.initRoot, .initRoot] ∧
      ¬ Along step Ledger startHeap [.initRoot, .initRoot] := by
  refine ⟨⟨possible_new_delete (by decide), ?_⟩, ⟨possible_new_delete (by decide), ?_⟩,
    ⟨trivial, fun _ _ => ⟨trivial, fun _ _ => trivial⟩⟩, ?_⟩
  · intro halong
    obtain ⟨h, hrun, hl⟩ := halong.run
    obtain rfl := Option.some.inj hrun
    exact absurd (hl.cleared 1 rfl .appendCstr) (by decide)
  · intro halong
    obtain ⟨h, hrun, hl⟩ := halong.run
    obtain rfl := Option.some.inj hrun
    have hrel := hl.released_of_not_live (o := 1) (t := 12) (m := .allocAtomic) rfl rfl
    exact absurd hrel (by decide)
  · intro halong
    obtain ⟨h, hrun, hl⟩ := halong.run
    obtain rfl := Option.some.inj hrun
    exact absurd (hl.exact.owned 0 (0, .destroy) rfl (by decide)) (by decide)

end MutantC.Classes
