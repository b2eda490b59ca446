import MutantC.Librope.RopeLedger
import MutantC.StringClass.StringContent

/-! The life of the rope of one object, from `string_class_init` to `string_class_destroy`, with the
record of the blocks it gives back. -/

namespace MutantC.StringClass
open CBuffer Iteration SkipList Ledger Librope

section
variable (env : Env)

def stringClassSetRecorded (l : Record Rope) (s : CString) : Option (Record Rope) := do
  let ccount := ropeCharCount l.now.state
  let l ← ropeDelRecorded l 0 ccount
  ropeInsertRecorded env l 0 s.bytes

def callRecorded (l : Record Rope) : Call → Option (Record Rope)
  | .set s => stringClassSetRecorded env l s
  | .insertCstrAt pos s => ropeInsertRecorded env l pos s.bytes
  | .appendCstr s => ropeInsertRecorded env l (ropeCharCount l.now.state) s.bytes

def stringRunRecorded (calls : List Call) : Option (Record Rope) :=
  run (callRecorded env) (Record.start (ropeNew2 env)) calls

def stringClassDestroyRecorded (l : Record Rope) : Option (Record Rope) := ropeFreeRecorded l

/-- The record ends in a rope that represents some text, and all its moments are tidy. -/
structure Kept (l : Record Rope) : Prop where
  shows : ∃ txt, Shows l.now.state txt
  tidy : ∀ m ∈ l.moments, Tidy m

theorem kept_start : Kept (Record.start (ropeNew2 env)) := by
  refine ⟨⟨[], shows_ropeNew2 env⟩, fun m hm => ?_⟩
  obtain rfl := List.mem_singleton.1 hm
  refine tidy_of_layout ⟨List.nodup_nil, by simp [Record.start], fun p => ?_⟩ (ropeNew2_spec env).toLayout
  show p < headPtr + 1 ↔ p ∈ [] ∨ (if p = headPtr then some _ else none) ≠ none
  by_cases hp : p = headPtr
  · simp [hp]
  · have hne : p ≠ 0 := hp
    simp [headPtr, hne]

variable {l : Record Rope}

theorem Kept.insert (h : Kept l) (pos : ℕ) (s : CString) :
    ∃ l', ropeInsertRecorded env l pos s.bytes = some l' ∧
      (ropeInsert env l.now.state pos s.bytes).map Prod.snd = some l'.now.state ∧ Kept l' := by
  obtain ⟨txt, hshows⟩ := h.shows
  obtain ⟨r', hrun, hshows'⟩ := hshows.insert_bytes env pos s
  obtain ⟨⟨res, r⟩, hinsert, rfl⟩ := Option.map_eq_some_iff.1 hrun
  obtain ⟨H, ls, hr, -⟩ := id hshows'
  obtain ⟨hrec, htidy⟩ := ropeInsertRecorded_eq hinsert hr.toLayout h.tidy
  exact ⟨l.next none r, hrec, hrun, ⟨_, hshows'⟩, htidy⟩

theorem Kept.clear (h : Kept l) :
    ∃ l', ropeDelRecorded l 0 (ropeCharCount l.now.state) = some l' ∧
      ropeDel l.now.state 0 (ropeCharCount l.now.state) = some l'.now.state ∧ Kept l' := by
  obtain ⟨txt, H, ls, hr, -⟩ := h.shows
  obtain ⟨l', ls', hrec, hrun, hr', htidy⟩ := ropeDelRecorded_spec hr h.tidy 0 (ropeCharCount l.now.state)
  exact ⟨l', hrec, hrun, ⟨text ls', H, ls', hr', rfl⟩, htidy⟩

theorem Kept.call (h : Kept l) (c : Call) :
    ∃ l', callRecorded env l c = some l' ∧ StringClass.call env l.now.state c = some l'.now.state ∧
      Kept l' := by
  cases c with
  | set s =>
    obtain ⟨l₁, hrec₁, hrun₁, h₁⟩ := h.clear
    obtain ⟨l', hrec, hrun, h'⟩ := h₁.insert env 0 s
    refine ⟨l', ?_, ?_, h'⟩
    · rw [callRecorded, stringClassSetRecorded, Option.bind_eq_bind, hrec₁, Option.bind_some, hrec]
    · rw [StringClass.call, stringClassSet, Option.bind_eq_bind, hrun₁, Option.bind_some, hrun]
  | insertCstrAt pos s => exact h.insert env pos s
  | appendCstr s => exact h.insert env (ropeCharCount l.now.state) s

theorem Kept.run (h : Kept l) (calls : List Call) :
    ∃ l', Iteration.run (callRecorded env) l calls = some l' ∧
      Iteration.run (StringClass.call env) l.now.state calls = some l'.now.state ∧ Kept l' := by
  induction calls generalizing l with
  | nil => exact ⟨l, rfl, rfl, h⟩
  | cons c calls ih =>
    obtain ⟨l₁, hrec₁, hrun₁, h₁⟩ := h.call env c
    obtain ⟨l', hrec, hrun, h'⟩ := ih h₁
    refine ⟨l', ?_, ?_, h'⟩
    · rw [Iteration.run, hrec₁, Option.bind_some, hrec]
    · rw [Iteration.run, hrun₁, Option.bind_some, hrun]

end

/-- Whatever heights are drawn and whatever strings come: when the object is deleted, every block that
was handed out has been released exactly once, and at every moment from its release on a block is dead,
so that an access to it would have failed; one that a deletion released is out of reach besides. -/
theorem blocks_released_once (env : Env) (calls : List Call) :
    ∃ l t, stringRunRecorded env calls = some l ∧ stringRun env calls = some l.now.state ∧
      stringClassDestroyRecorded l = some t ∧ stringClassDestroy l.now.state = some t.now.state ∧
      t.now.freed.Perm (List.range t.now.state.brk) ∧
      (t.moments.Pairwise fun later earlier => earlier.freed <:+ later.freed) ∧
      ∀ m ∈ t.moments, ∀ p ∈ m.freed,
        m.state.nodes p = none ∧ (p ∈ l.now.freed → ¬ m.state.Reaches p) := by
  obtain ⟨l, hrec, hrun, h⟩ := (kept_start env).run env calls
  obtain ⟨txt, H, ls, hr, -⟩ := h.shows
  obtain ⟨t, hfrec, hfrun, hdone, hclosing⟩ := ropeFreeRecorded_spec hr h.tidy
  refine ⟨l, t, hrec, hrun, hfrec, hfrun, ?_, t.pairwise_moments, fun m hm p hp => ⟨?_, ?_⟩⟩
  · exact (hclosing t.now t.now_mem_moments).balanced.perm_range fun p => not_not.2 (hdone p)
  · exact not_not.1 ((hclosing m hm).balanced.apart p hp)
  · exact (hclosing m hm).away p hp

end MutantC.StringClass
