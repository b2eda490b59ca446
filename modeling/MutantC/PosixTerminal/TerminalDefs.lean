import MutantC.Lib.Iteration

/-! A terminal session of posix_terminal: the object, what it changes outside of itself, and the functions
that set up, restore and end it. `none` from a function is a NULL TermKey, or a call through an address
that is no function. -/

namespace MutantC.PosixTerminal
open Iteration

/-- The flags and the control characters; what else there is in it is copied along and never changed. -/
structure Termios where
  cIflag : BitVec 32
  cOflag : BitVec 32
  cCflag : BitVec 32
  cLflag : BitVec 32
  cCc : Fin 32 → UInt8
deriving DecidableEq

def zeroTermios : Termios := ⟨0, 0, 0, 0, fun _ => 0⟩

def vtime : Fin 32 := 5
def vmin : Fin 32 := 6

def cfmakeraw (t : Termios) : Termios where
  -- IGNBRK, BRKINT, PARMRK, ISTRIP, INLCR, IGNCR, ICRNL, IXON
  cIflag := t.cIflag &&& ~~~0x5eb
  -- OPOST
  cOflag := t.cOflag &&& ~~~0x1
  -- CSIZE and PARENB, and CS8 instead
  cCflag := t.cCflag &&& ~~~0x130 ||| 0x30
  -- ECHO, ECHONL, ICANON, ISIG, IEXTEN
  cLflag := t.cLflag &&& ~~~0x804b
  cCc := Function.update (Function.update t.cCc vmin 1) vtime 0

inductive Handler
  /-- `SIG_DFL`, which is the NULL pointer. -/
  | dfl
  /-- `SIG_IGN`, which is the address 1. -/
  | ign
  /-- Some other function, which returns. -/
  | func (f : ℕ)
  /-- The `sig_handle` of the terminal. -/
  | sigHandle
deriving DecidableEq

inductive Fd
  | stdin
  | stdout
deriving DecidableEq

structure Process where
  /-- The terminal that a descriptor is open on, if it is one. -/
  tty : Fd → Option ℕ
  attrs : ℕ → Termios
  sigwinch : Handler
  /-- Rows and columns, as `TIOCGWINSZ` gives them. -/
  winSize : ℕ × ℕ
  /-- How many TermKeys there have been; they are numbered in turn. -/
  termKeys : ℕ
  /-- The TermKeys that were destroyed, one entry for each time. -/
  destroyed : List ℕ

structure Terminal where
  /-- `none` is NULL. -/
  tk : Option ℕ
  curSize : ℕ × ℕ
  origStdinTermios : Termios
  origStdoutTermios : Termios
  curStdinTermios : Termios
  curStdoutTermios : Termios
  origSigHandler : Handler

structure Session where
  term : Terminal
  proc : Process

namespace Process

/-- `signal(SIGWINCH, h)`, which returns the handler before. -/
def signal (p : Process) (h : Handler) : Handler × Process := (p.sigwinch, { p with sigwinch := h })

/-- `t` is what the record held: it stays so where there is no terminal. -/
def tcgetattr (p : Process) (fd : Fd) (t : Termios) : Termios :=
  match p.tty fd with
  | none => t
  | some d => p.attrs d

def tcsetattr (p : Process) (fd : Fd) (t : Termios) : Process :=
  match p.tty fd with
  | none => p
  | some d => { p with attrs := Function.update p.attrs d t }

theorem tcsetattr_eq (p : Process) (fd : Fd) (t : Termios) :
    p.tcsetattr fd t = { p with attrs := (p.tcsetattr fd t).attrs } := by
  unfold tcsetattr
  split <;> rfl

@[simp] theorem tcsetattr_termKeys (p : Process) (fd : Fd) (t : Termios) :
    (p.tcsetattr fd t).termKeys = p.termKeys := by rw [tcsetattr_eq]

@[simp] theorem tcsetattr_destroyed (p : Process) (fd : Fd) (t : Termios) :
    (p.tcsetattr fd t).destroyed = p.destroyed := by rw [tcsetattr_eq]

end Process

def posixTerminalClassSetupTerm (s : Session) : Session :=
  let curSize := s.proc.winSize
  let (origSigHandler, proc) := s.proc.signal .sigHandle
  let origStdoutTermios := proc.tcgetattr .stdout s.term.origStdoutTermios
  let proc := proc.tcsetattr .stdout origStdoutTermios
  let origStdinTermios := proc.tcgetattr .stdin s.term.origStdinTermios
  let raw := cfmakeraw origStdinTermios
  let curStdinTermios := { raw with cCc := Function.update (Function.update raw.cCc vmin 1) vtime 0 }
  let proc := proc.tcsetattr .stdin curStdinTermios
  { term :=
      { tk := some proc.termKeys
        curSize := curSize
        origStdinTermios := origStdinTermios
        origStdoutTermios := origStdoutTermios
        curStdinTermios := curStdinTermios
        curStdoutTermios := origStdoutTermios
        origSigHandler := origSigHandler }
    proc := { proc with termKeys := proc.termKeys + 1 } }

def posixTerminalClassRestoreTerm (s : Session) : Option Session :=
  let (_, proc) := s.proc.signal s.term.origSigHandler
  let proc := proc.tcsetattr .stdin s.term.origStdinTermios
  let proc := proc.tcsetattr .stdout s.term.origStdoutTermios
  -- termkey_stop(this->tk)
  s.term.tk.map fun _ => { s with proc := proc }

/-- A call of a handler, with the depth of calls that it may take. -/
def callHandler : ℕ → Handler → Session → Option Session
  | 0, _, _ => none
  | _ + 1, .dfl, _ => none
  | _ + 1, .ign, _ => none
  | _ + 1, .func _, s => some s
  -- posix_terminal_class_sig_handle
  | n + 1, .sigHandle, s => do
    let s ← (if s.term.origSigHandler ≠ .dfl then callHandler n s.term.origSigHandler s else some s)
    some { s with term := { s.term with curSize := s.proc.winSize } }

/-- The delivery of a SIGWINCH: by default it is ignored. -/
def deliverSigwinch (n : ℕ) (s : Session) : Option Session :=
  match s.proc.sigwinch with
  | .dfl => some s
  | .ign => some s
  | h => callHandler n h s

/-- `termkey_destroy(this->tk)`, at the end of `posix_terminal_class_destroy`. -/
def posixTerminalClassDestroy (s : Session) : Option Session :=
  s.term.tk.map fun tk => { s with proc := { s.proc with destroyed := s.proc.destroyed ++ [tk] } }

inductive Event
  | setupTerm
  | restoreTerm
  /-- The window has got a new size. -/
  | sigwinch (winSize : ℕ × ℕ)
deriving DecidableEq

def step (n : ℕ) (s : Session) : Event → Option Session
  | .setupTerm => some (posixTerminalClassSetupTerm s)
  | .restoreTerm => posixTerminalClassRestoreTerm s
  | .sigwinch size => deliverSigwinch n { s with proc := { s.proc with winSize := size } }

/-- The events, one more `restore_term` and then `delete`. -/
def session (n : ℕ) (s : Session) (events : List Event) : Option Session :=
  (run (step n) s (events ++ [.restoreTerm])).bind posixTerminalClassDestroy

structure Surroundings where
  tty : Fd → Option ℕ
  attrs : ℕ → Termios
  sigwinch : Handler
  winSize : ℕ × ℕ
  sigwinch_ne : sigwinch ≠ .sigHandle

/-- An object as `new` makes it: apart from its methods it is all zeros. -/
def newTerminal : Terminal where
  tk := none
  curSize := (0, 0)
  origStdinTermios := zeroTermios
  origStdoutTermios := zeroTermios
  curStdinTermios := zeroTermios
  curStdoutTermios := zeroTermios
  origSigHandler := .dfl

def Surroundings.start (w : Surroundings) : Session where
  term := newTerminal
  proc :=
    { tty := w.tty
      attrs := w.attrs
      sigwinch := w.sigwinch
      winSize := w.winSize
      termKeys := 0
      destroyed := [] }

end MutantC.PosixTerminal
