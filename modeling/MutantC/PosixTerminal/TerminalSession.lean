import MutantC.PosixTerminal.TerminalDefs

/-! Whole sessions: what was saved is what is restored exactly when it is saved once and first, and no
SIGWINCH finds an ignored one to hand it on to. -/

namespace MutantC.PosixTerminal
open Iteration

/-- The session gets through to its end, and leaves the terminals, the handler and the TermKeys as it
should. -/
def CleansUp (w : Surroundings) (events : List Event) : Prop :=
  ∃ n s, session n w.start events = some s ∧
    (∀ fd d, w.tty fd = some d → s.proc.attrs d = w.attrs d) ∧ s.proc.sigwinch = w.sigwinch ∧
    ∀ k < s.proc.termKeys, s.proc.destroyed.count k = 1

/-- One `setup_term`, with no `restore_term` before it; and where SIGWINCH was ignored, none comes before the
first `restore_term` after it. -/
def Proper (w : Surroundings) (events : List Event) : Prop :=
  ∃ pre post, events = pre ++ .setupTerm :: post ∧ (∀ e ∈ pre, ∃ size, e = .sigwinch size) ∧
    .setupTerm ∉ post ∧ (w.sigwinch = .ign → post = [] ∨ ∃ rest, post = .restoreTerm :: rest)

/-! ### The steps -/

section Steps
variable {n : ℕ} {s s' : Session} {e : Event}

def Session.resize (s : Session) (winSize curSize : ℕ × ℕ) : Session :=
  ⟨{ s.term with curSize := curSize }, { s.proc with winSize := winSize }⟩

theorem callHandler_some {h : Handler} (hcall : callHandler n h s = some s') :
    ∃ curSize, s' = s.resize s.proc.winSize curSize := by
  induction n generalizing s s' h with
  | zero => exact absurd hcall.symm (Option.some_ne_none s')
  | succ n ih =>
    cases h with
    | dfl => exact absurd hcall.symm (Option.some_ne_none s')
    | ign => exact absurd hcall.symm (Option.some_ne_none s')
    | func f => exact ⟨s.term.curSize, (Option.some.inj hcall).symm⟩
    | sigHandle =>
      obtain ⟨s₁, hchain, hsize⟩ := Option.bind_eq_some_iff.1 hcall
      obtain rfl := Option.some.inj hsize
      split_ifs at hchain
      · obtain ⟨curSize, rfl⟩ := ih hchain
        exact ⟨_, rfl⟩
      · obtain rfl := Option.some.inj hchain
        exact ⟨_, rfl⟩

theorem step_sigwinch {size : ℕ × ℕ} (h : step n s (.sigwinch size) = some s') :
    ∃ curSize, s' = s.resize size curSize := by
  unfold step deliverSigwinch at h
  simp only at h
  split at h
  · exact ⟨s.term.curSize, (Option.some.inj h).symm⟩
  · exact ⟨s.term.curSize, (Option.some.inj h).symm⟩
  · obtain ⟨curSize, rfl⟩ := callHandler_some h
    exact ⟨curSize, rfl⟩

theorem step_sigwinch_of_ne (h : s.proc.sigwinch ≠ .sigHandle) (size : ℕ × ℕ) :
    step (n + 1) s (.sigwinch size) = some (s.resize size s.term.curSize) := by
  obtain ⟨term, tty, attrs, handler, winSize, termKeys, destroyed⟩ := s
  cases handler with
  | dfl => rfl
  | ign => rfl
  | func f => rfl
  | sigHandle => exact absurd rfl h

theorem step_termKeys (h : step n s e = some s') :
    s'.proc.termKeys = s.proc.termKeys + [e].count .setupTerm ∧ s'.proc.destroyed = s.proc.destroyed := by
  cases e with
  | setupTerm =>
    obtain rfl := Option.some.inj h
    simp [posixTerminalClassSetupTerm, Process.signal]
  | restoreTerm =>
    obtain ⟨tk, -, rfl⟩ := Option.map_eq_some_iff.1 h
    simp
  | sigwinch size =>
    obtain ⟨curSize, rfl⟩ := step_sigwinch h
    exact ⟨rfl, rfl⟩

theorem run_termKeys {events : List Event} (h : run (step n) s events = some s') :
    s'.proc.termKeys = s.proc.termKeys + events.count .setupTerm ∧
      s'.proc.destroyed = s.proc.destroyed := by
  induction events generalizing s with
  | nil =>
    obtain rfl := Option.some.inj h
    exact ⟨rfl, rfl⟩
  | cons e events ih =>
    obtain ⟨s₁, hstep, hrest⟩ := Option.bind_eq_some_iff.1 h
    obtain ⟨hkeys, hdestroyed⟩ := step_termKeys hstep
    obtain ⟨hkeys', hdestroyed'⟩ := ih hrest
    refine ⟨?_, hdestroyed'.trans hdestroyed⟩
    rw [hkeys', hkeys, Nat.add_assoc, ← List.count_append, List.singleton_append]

end Steps

/-! ### Before `setup_term` -/

/-- Nothing is set up yet, and no size the window had matters. -/
structure Fresh (w : Surroundings) (s : Session) : Prop where
  tk : s.term.tk = none
  proc : ∃ size, s.proc = { w.start.proc with winSize := size }

theorem fresh_start (w : Surroundings) : Fresh w w.start := ⟨rfl, w.winSize, rfl⟩

section Before
variable {w : Surroundings} {n : ℕ} {s s' : Session}

theorem Fresh.sigwinch (h : Fresh w s) (size : ℕ × ℕ) :
    ∃ s', step (n + 1) s (.sigwinch size) = some s' ∧ Fresh w s' := by
  obtain ⟨size', hproc⟩ := h.proc
  have hhandler : s.proc.sigwinch ≠ .sigHandle := by
    rw [hproc]
    exact w.sigwinch_ne
  refine ⟨_, step_sigwinch_of_ne hhandler size, h.tk, size, ?_⟩
  rw [Session.resize, hproc]

theorem Fresh.step (h : Fresh w s) {e : Event} (he : e ≠ .setupTerm)
    (hstep : PosixTerminal.step n s e = some s') : Fresh w s' ∧ ∃ size, e = .sigwinch size := by
  cases e with
  | setupTerm => exact absurd rfl he
  | restoreTerm =>
    obtain ⟨tk, htk, -⟩ := Option.map_eq_some_iff.1 hstep
    rw [h.tk] at htk
    exact absurd htk.symm (Option.some_ne_none tk)
  | sigwinch size =>
    obtain ⟨curSize, rfl⟩ := step_sigwinch hstep
    obtain ⟨size', hproc⟩ := h.proc
    refine ⟨⟨h.tk, size, ?_⟩, size, rfl⟩
    rw [Session.resize, hproc]

theorem Fresh.run {events : List Event} (h : Fresh w s) (he : .setupTerm ∉ events)
    (hrun : Iteration.run (PosixTerminal.step n) s events = some s') :
    Fresh w s' ∧ ∀ e ∈ events, ∃ size, e = .sigwinch size := by
  induction events generalizing s with
  | nil =>
    obtain rfl := Option.some.inj hrun
    exact ⟨h, List.forall_mem_nil _⟩
  | cons e events ih =>
    obtain ⟨hne, hrest⟩ := not_or.1 (mt List.mem_cons.2 he)
    obtain ⟨s₁, hstep, hrun'⟩ := Option.bind_eq_some_iff.1 hrun
    obtain ⟨h₁, hsize⟩ := h.step (Ne.symm hne) hstep
    obtain ⟨h', hall⟩ := ih h₁ hrest hrun'
    exact ⟨h', List.forall_mem_cons.2 ⟨hsize, hall⟩⟩

theorem Fresh.exists_run {events : List Event} (h : Fresh w s)
    (he : ∀ e ∈ events, ∃ size, e = .sigwinch size) :
    ∃ s', Iteration.run (PosixTerminal.step (n + 1)) s events = some s' ∧ Fresh w s' := by
  refine Iteration.exists_run (fun s e hs hsize => ?_) h he
  obtain ⟨size, rfl⟩ := hsize
  exact hs.sigwinch size

end Before

/-! ### After `setup_term` -/

/-- What the object saved is what there was, and only the terminal of stdin may have other attributes. -/
structure Saved (w : Surroundings) (s : Session) : Prop where
  tty : s.proc.tty = w.tty
  attrs : ∀ d, w.tty .stdin ≠ some d → s.proc.attrs d = w.attrs d
  stdin : ∀ d, w.tty .stdin = some d → s.term.origStdinTermios = w.attrs d
  stdout : ∀ d, w.tty .stdout = some d → s.term.origStdoutTermios = w.attrs d
  handler : s.term.origSigHandler = w.sigwinch
  tk : s.term.tk = some 0
  termKeys : s.proc.termKeys = 1
  destroyed : s.proc.destroyed = []

structure Restored (w : Surroundings) (s : Session) : Prop extends Saved w s where
  sigwinch : s.proc.sigwinch = w.sigwinch
  same : s.proc.attrs = w.attrs

section After
variable {w : Surroundings} {n : ℕ} {s s' : Session}

theorem tcsetattr_same {p : Process} {fd : Fd} {t : Termios} (h : ∀ d, p.tty fd = some d → t = p.attrs d) :
    p.tcsetattr fd t = p := by
  unfold Process.tcsetattr
  split
  · rfl
  · next d hd => rw [h d hd, Function.update_eq_self]

theorem tcsetattr_of_ne {p : Process} {fd : Fd} (t : Termios) {d : ℕ} (h : p.tty fd ≠ some d) :
    (p.tcsetattr fd t).attrs d = p.attrs d := by
  unfold Process.tcsetattr
  split
  · rfl
  · next d' hd =>
    apply Function.update_of_ne
    rintro rfl
    exact h hd

theorem tcsetattr_self {p : Process} {fd : Fd} (t : Termios) {d : ℕ} (h : p.tty fd = some d) :
    (p.tcsetattr fd t).attrs d = t := by
  unfold Process.tcsetattr
  rw [h]
  exact Function.update_self _ _ _

theorem tcgetattr_eq {p : Process} {fd : Fd} (t : Termios) {d : ℕ} (h : p.tty fd = some d) :
    p.tcgetattr fd t = p.attrs d := by
  unfold Process.tcgetattr
  rw [h]

theorem Fresh.setup (h : Fresh w s) :
    Saved w (posixTerminalClassSetupTerm s) ∧
      (posixTerminalClassSetupTerm s).proc.sigwinch = .sigHandle := by
  obtain ⟨size, hproc⟩ := h.proc
  obtain ⟨term, proc⟩ := s
  obtain rfl : proc = { w.start.proc with winSize := size } := hproc
  -- writing back what was read from stdout changes nothing
  have hstdout (p : Process) (t : Termios) : p.tcsetattr .stdout (p.tcgetattr .stdout t) = p :=
    tcsetattr_same fun d hd => tcgetattr_eq t hd
  unfold posixTerminalClassSetupTerm Process.signal
  simp only [hstdout]
  rw [Process.tcsetattr_eq]
  refine ⟨⟨rfl, fun d hd => tcsetattr_of_ne _ hd, fun d hd => tcgetattr_eq _ hd, fun d hd => tcgetattr_eq _ hd,
    rfl, rfl, rfl, rfl⟩, rfl⟩

theorem Saved.restore (h : Saved w s) :
    ∃ s', step n s .restoreTerm = some s' ∧ Restored w s' := by
  have hstdin : ((s.proc.signal s.term.origSigHandler).2.tcsetattr .stdin s.term.origStdinTermios).attrs =
      w.attrs := by
    funext d
    by_cases hd : w.tty .stdin = some d
    · have hd' : (s.proc.signal s.term.origSigHandler).2.tty .stdin = some d := h.tty ▸ hd
      rw [tcsetattr_self _ hd', h.stdin d hd]
    · have hd' : (s.proc.signal s.term.origSigHandler).2.tty .stdin ≠ some d := h.tty ▸ hd
      rw [tcsetattr_of_ne _ hd']
      exact h.attrs d hd
  have hproc : (s.proc.signal s.term.origSigHandler).2.tcsetattr .stdin s.term.origStdinTermios =
      { s.proc with sigwinch := w.sigwinch, attrs := w.attrs } := by
    rw [Process.tcsetattr_eq, hstdin, h.handler]
    rfl
  have hstdout : Process.tcsetattr { s.proc with sigwinch := w.sigwinch, attrs := w.attrs } .stdout
      s.term.origStdoutTermios = { s.proc with sigwinch := w.sigwinch, attrs := w.attrs } :=
    tcsetattr_same fun d hd => h.stdout d (h.tty ▸ hd)
  refine ⟨{ s with proc := { s.proc with sigwinch := w.sigwinch, attrs := w.attrs } }, ?_,
    ⟨h.tty, fun d _ => rfl, h.stdin, h.stdout, h.handler, h.tk, h.termKeys, h.destroyed⟩, rfl, rfl⟩
  unfold step posixTerminalClassRestoreTerm
  simp only [hproc, hstdout, h.tk, Option.map_some]

theorem Saved.resize (h : Saved w s) (winSize curSize : ℕ × ℕ) : Saved w (s.resize winSize curSize) :=
  ⟨h.tty, h.attrs, h.stdin, h.stdout, h.handler, h.tk, h.termKeys, h.destroyed⟩

theorem Restored.sigwinch_step (h : Restored w s) (size : ℕ × ℕ) :
    ∃ s', step (n + 1) s (.sigwinch size) = some s' ∧ Restored w s' := by
  have hhandler : s.proc.sigwinch ≠ .sigHandle := h.sigwinch ▸ w.sigwinch_ne
  exact ⟨_, step_sigwinch_of_ne hhandler size, h.toSaved.resize _ _, h.sigwinch, h.same⟩

theorem Saved.sigwinch_step (h : Saved w s) (hhandler : s.proc.sigwinch = .sigHandle)
    (hign : w.sigwinch ≠ .ign) (size : ℕ × ℕ) :
    ∃ s', step (n + 2) s (.sigwinch size) = some s' ∧ Saved w s' ∧ s'.proc.sigwinch = .sigHandle := by
  have hstep : ∃ s', step (n + 2) s (.sigwinch size) = some s' := by
    unfold step deliverSigwinch
    simp only [hhandler]
    rw [callHandler]
    simp only [h.handler]
    cases hw : w.sigwinch with
    | dfl => exact ⟨_, rfl⟩
    | ign => exact absurd hw hign
    | func f => exact ⟨_, rfl⟩
    | sigHandle => exact absurd hw w.sigwinch_ne
  obtain ⟨s', hs'⟩ := hstep
  obtain ⟨curSize, rfl⟩ := step_sigwinch hs'
  exact ⟨_, hs', h.resize _ _, hhandler⟩

theorem Saved.sigwinch_faults (h : Saved w s) (hhandler : s.proc.sigwinch = .sigHandle)
    (hign : w.sigwinch = .ign) (size : ℕ × ℕ) : step n s (.sigwinch size) = none := by
  unfold step deliverSigwinch
  simp only [hhandler]
  rcases n with - | - | n
  · rfl
  · rw [callHandler]
    simp [h.handler, hign, callHandler]
  · rw [callHandler]
    simp [h.handler, hign, callHandler]

/-- A handler that is its own predecessor never returns. -/
theorem callHandler_self (h : s.term.origSigHandler = .sigHandle) (n : ℕ) :
    callHandler n .sigHandle s = none := by
  induction n with
  | zero => rfl
  | succ n ih =>
    rw [callHandler, h, ih]
    rfl

/-- Where SIGWINCH may come. -/
def Steady (w : Surroundings) (s : Session) : Prop :=
  Restored w s ∨ Saved w s ∧ s.proc.sigwinch = .sigHandle ∧ w.sigwinch ≠ .ign

theorem Steady.saved (h : Steady w s) : Saved w s := h.elim Restored.toSaved And.left

theorem Steady.exists_step (h : Steady w s) {e : Event} (he : e ≠ .setupTerm) :
    ∃ s', step (n + 2) s e = some s' ∧ Steady w s' := by
  cases e with
  | setupTerm => exact absurd rfl he
  | restoreTerm =>
    obtain ⟨s', hs', h'⟩ := h.saved.restore
    exact ⟨s', hs', Or.inl h'⟩
  | sigwinch size =>
    rcases h with h | ⟨h, hhandler, hign⟩
    · obtain ⟨s', hs', h'⟩ := h.sigwinch_step size
      exact ⟨s', hs', Or.inl h'⟩
    · obtain ⟨s', hs', h', hhandler'⟩ := h.sigwinch_step hhandler hign size
      exact ⟨s', hs', Or.inr ⟨h', hhandler', hign⟩⟩

theorem Steady.exists_run {events : List Event} (h : Steady w s) (he : .setupTerm ∉ events) :
    ∃ s', run (step (n + 2)) s events = some s' ∧ Steady w s' := by
  refine Iteration.exists_run (fun s e hs hne => hs.exists_step hne) h fun e hmem => ?_
  rintro rfl
  exact he hmem

theorem Steady.exists_restored {events : List Event} (h : Steady w s) (he : .setupTerm ∉ events) :
    ∃ s', run (step (n + 2)) s (events ++ [.restoreTerm]) = some s' ∧ Restored w s' := by
  obtain ⟨s₁, hrun, h₁⟩ := h.exists_run (n := n) he
  obtain ⟨s', hrestore, h'⟩ := h₁.saved.restore (n := n + 2)
  refine ⟨s', ?_, h'⟩
  rw [run_append, hrun, Option.bind_some, run, hrestore]
  rfl

end After

/-! ### Whole sessions -/

section Sessions
variable {w : Surroundings} {events : List Event}

theorem CleansUp.proper (h : CleansUp w events) : Proper w events := by
  obtain ⟨n, s, hsession, -, -, honce⟩ := h
  obtain ⟨s₁, hrun, hdestroy⟩ := Option.bind_eq_some_iff.1 hsession
  obtain ⟨tk, -, rfl⟩ := Option.map_eq_some_iff.1 hdestroy
  obtain ⟨hkeys, hdestroyed⟩ := run_termKeys hrun
  have hcount : s₁.proc.termKeys = events.count .setupTerm := by
    rw [hkeys, List.count_append]
    exact Nat.zero_add _
  -- only one TermKey is destroyed, so at most one was made
  have hone : events.count .setupTerm ≤ 1 := by
    by_contra hmany
    have hzero := honce 0 (show 0 < s₁.proc.termKeys by omega)
    have hone := honce 1 (show 1 < s₁.proc.termKeys by omega)
    change (s₁.proc.destroyed ++ [tk]).count 0 = 1 at hzero
    change (s₁.proc.destroyed ++ [tk]).count 1 = 1 at hone
    rw [hdestroyed] at hzero hone
    have hmem : 0 ∈ [tk] := List.count_pos_iff.1 (lt_of_lt_of_eq Nat.one_pos hzero.symm)
    have hmem' : 1 ∈ [tk] := List.count_pos_iff.1 (lt_of_lt_of_eq Nat.one_pos hone.symm)
    exact absurd ((List.mem_singleton.1 hmem).trans (List.mem_singleton.1 hmem').symm) (by decide)
  have hmem : Event.setupTerm ∈ events := by
    by_contra hno
    have hno' : Event.setupTerm ∉ events ++ [.restoreTerm] := by simpa using hno
    obtain ⟨-, hall⟩ := (fresh_start w).run hno' hrun
    obtain ⟨size, hsize⟩ := hall .restoreTerm (List.mem_append_right _ List.mem_cons_self)
    exact Event.noConfusion hsize
  obtain ⟨pre, post, rfl, hpre⟩ := List.eq_append_cons_of_mem hmem
  have hpost : Event.setupTerm ∉ post := by
    intro hagain
    have hpos := List.count_pos_iff.2 hagain
    rw [List.count_append, List.count_cons_self] at hone
    omega
  rw [List.append_assoc, run_append] at hrun
  obtain ⟨s₂, hbefore, hrest⟩ := Option.bind_eq_some_iff.1 hrun
  obtain ⟨hfresh, hall⟩ := (fresh_start w).run hpre hbefore
  obtain ⟨hsaved, hhandler⟩ := hfresh.setup
  refine ⟨pre, post, rfl, hall, hpost, fun hign => ?_⟩
  rcases post with - | ⟨e, post⟩
  · exact Or.inl rfl
  · cases e with
    | setupTerm => exact absurd List.mem_cons_self hpost
    | restoreTerm => exact Or.inr ⟨post, rfl⟩
    | sigwinch size =>
      obtain ⟨s₃, hsetup, hrest⟩ := Option.bind_eq_some_iff.1 hrest
      obtain rfl := Option.some.inj hsetup
      obtain ⟨s₄, hdeliver, -⟩ := Option.bind_eq_some_iff.1 hrest
      rw [hsaved.sigwinch_faults hhandler hign] at hdeliver
      exact absurd hdeliver.symm (Option.some_ne_none s₄)

theorem Proper.cleansUp (h : Proper w events) : CleansUp w events := by
  obtain ⟨pre, post, rfl, hpre, hpost, hign⟩ := h
  obtain ⟨s₁, hbefore, hfresh⟩ := (fresh_start w).exists_run (n := 1) hpre
  obtain ⟨hsaved, hhandler⟩ := hfresh.setup
  have hafter : ∃ s₂, run (step 2) (posixTerminalClassSetupTerm s₁) (post ++ [.restoreTerm]) = some s₂ ∧
      Restored w s₂ := by
    by_cases hw : w.sigwinch = .ign
    · obtain ⟨s₂, hrestore, h₂⟩ := hsaved.restore (n := 2)
      rcases hign hw with rfl | ⟨rest, rfl⟩
      · exact ⟨s₂, by rw [List.nil_append, run, hrestore]; rfl, h₂⟩
      · have hrest : Event.setupTerm ∉ rest := fun hmem => hpost (List.mem_cons_of_mem _ hmem)
        obtain ⟨s₃, hrun, h₃⟩ := Steady.exists_restored (n := 0) (Or.inl h₂) hrest
        exact ⟨s₃, by rw [List.cons_append, run, hrestore, Option.bind_some, hrun], h₃⟩
    · exact Steady.exists_restored (n := 0) (Or.inr ⟨hsaved, hhandler, hw⟩) hpost
  obtain ⟨s₂, hrun, h₂⟩ := hafter
  refine ⟨2, { s₂ with proc := { s₂.proc with destroyed := s₂.proc.destroyed ++ [0] } }, ?_, ?_,
    h₂.sigwinch, ?_⟩
  · unfold session posixTerminalClassDestroy
    rw [List.append_assoc, run_append, hbefore, Option.bind_some, List.cons_append, run]
    simp only [step, Option.bind_some, hrun, h₂.tk, Option.map_some]
  · intro fd d _
    exact congrFun h₂.same d
  · intro k hk
    change k < s₂.proc.termKeys at hk
    rw [h₂.termKeys, Nat.lt_one_iff] at hk
    change (s₂.proc.destroyed ++ [0]).count k = 1
    rw [h₂.destroyed, hk]
    rfl

end Sessions

/-- For every sequence of events that ends with `restore_term` and `delete`: terminals, handler and TermKeys
are left as they should, and no delivery or TermKey faults, exactly when the session is a proper one. -/
theorem cleans_up_iff (w : Surroundings) (events : List Event) : CleansUp w events ↔ Proper w events :=
  ⟨CleansUp.proper, Proper.cleansUp⟩

/-- A terminal that echoes and reads by lines, both descriptors open on it. -/
def cooked (h : Handler) (hne : h ≠ .sigHandle) : Surroundings where
  tty _ := some 0
  attrs _ := { zeroTermios with cLflag := 0xa }
  sigwinch := h
  winSize := (24, 80)
  sigwinch_ne := hne

/-- Two times `setup_term`: the end leaves no echo and one TermKey behind, and a SIGWINCH on the way calls
the handler again and again. And with SIGWINCH ignored before, `setup_term` and SIGWINCH. -/
theorem setup_twice_leaves_raw :
    (¬ CleansUp (cooked .dfl (by decide)) [.setupTerm, .setupTerm] ∧
      ((session 2 (cooked .dfl (by decide)).start [.setupTerm, .setupTerm]).map fun s =>
        ((s.proc.attrs 0).cLflag, s.proc.sigwinch, s.proc.termKeys, s.proc.destroyed)) =
          some (0, .sigHandle, 2, [1])) ∧
    (∀ n, session n (cooked .dfl (by decide)).start [.setupTerm, .setupTerm, .sigwinch (24, 80)] = none) ∧
    ∀ n, session n (cooked .ign (by decide)).start [.setupTerm, .sigwinch (24, 80)] = none := by
  refine ⟨⟨?_, by decide +kernel⟩, fun n => ?_, fun n => ?_⟩
  · intro h
    obtain ⟨pre, post, heq, hpre, hpost, -⟩ := h.proper
    rcases pre with - | ⟨e, pre⟩
    · obtain ⟨-, rfl⟩ := List.cons.inj heq
      exact hpost List.mem_cons_self
    · obtain ⟨rfl, -⟩ := List.cons.inj heq
      obtain ⟨size, hsize⟩ := hpre _ List.mem_cons_self
      exact Event.noConfusion hsize
  · have hloop : step n (posixTerminalClassSetupTerm (posixTerminalClassSetupTerm
        (cooked .dfl (by decide)).start)) (.sigwinch (24, 80)) = none := callHandler_self rfl n
    unfold session
    simp only [List.cons_append, List.nil_append, run, step, Option.bind_some] at hloop ⊢
    rw [hloop]
    rfl
  · obtain ⟨hsaved, hhandler⟩ := (fresh_start (cooked .ign (by decide))).setup
    have hfault := hsaved.sigwinch_faults (n := n) hhandler rfl (24, 80)
    unfold session
    simp only [List.cons_append, List.nil_append, run, step, Option.bind_some] at hfault ⊢
    rw [hfault]
    rfl

end MutantC.PosixTerminal
