import MutantC.Lib.Iteration
import MutantC.Libtermkey.TiDriver

/-! The TermKey: its buffer of bytes, the drivers that look at the front of it, and the functions that put
bytes in and take keys out. `none` from a function is an access outside of the buffer, or a failure in a
driver. -/

namespace MutantC.Libtermkey
open CBuffer Iteration Tries

inductive Driver
  | ti (root : TrieNode)
  | csi

def Driver.isCsi : Driver → Bool
  | .ti _ => false
  | .csi => true

structure Settings extends Interpretation where
  /-- The drivers in the order they are asked. -/
  drivers : List Driver

structure TermKey extends Settings where
  buffer : List Byte
  /-- A `size_t`; below zero is one that has wrapped around. -/
  buffstart : ℤ
  buffcount : ℕ
  buffsize : ℕ
  hightide : ℕ
  csi : TermKeyCsi
  isStarted : Bool
  keynames : List (Option (List Byte))

def Driver.peekkey (s : Interpretation) (csi : TermKeyCsi) (w : List Byte) (force : Bool) :
    Driver → Option Reply
  | .ti root => tiPeekkey s csi root w force
  | .csi => csiPeekkey s csi w force

/-- What the drivers came to: one of them settled it, or none did, and then whether one of them waits for
more bytes. -/
inductive Tried
  | settled (r : Reply)
  | unsettled (again : Bool) (store : TermKeyKey → TermKeyKey)

def tryDrivers (s : Interpretation) (csi : TermKeyCsi) (w : List Byte) (force : Bool) :
    List Driver → Bool → (TermKeyKey → TermKeyKey) → Option Tried
  | [], again, store => some (.unsettled again store)
  | d :: ds, again, store => do
    let r ← d.peekkey s csi w force
    match r.res with
    | .again => tryDrivers s csi w force ds (again || !force) (r.store ∘ store)
    | .none => tryDrivers s csi w force ds again (r.store ∘ store)
    | _ => some (.settled { r with store := r.store ∘ store })

/-- The branch of `peekkey_simple` for UTF-8: a sequence that is not whole is taken for an invalid one by
a caller that demands an answer. -/
def utf8Reply (s : Interpretation) (csi : TermKeyCsi) (b0 : Byte) (rest : List Byte) (force : Bool) :
    Option Reply :=
  match parseUtf8 b0 rest with
  | .key cp nbytes => (emitCodepoint s cp).map fun emit => .found emit nbytes csi
  | .again cp =>
    if force then (emitCodepoint s utf8Invalid).map fun emit => .found emit (rest.length + 1) csi
    else (emitCodepoint s cp).map fun emit => .undecided .again emit csi

/-- `peekkey_simple` for everything but an escape with bytes behind it. -/
def simpleReply (s : Interpretation) (csi : TermKeyCsi) (w : List Byte) (force : Bool) : Option Reply :=
  match w with
  | [] => some (.empty s csi)
  | b0 :: rest =>
    if b0 = 0x1b ∧ ¬ force then some (.undecided .again id csi)
    else if b0 < 0xa0 then (emitCodepoint s b0.toNat).map fun emit => .found emit 1 csi
    else if HasFlag s.flags flagUtf8 then utf8Reply s csi b0 rest force
    else
      some (.found (fun key =>
        storeUtf8 [b0] { key with type := .unicode, code := .codepoint b0.toNat, modifiers := 0 }) 1 csi)

structure Peek where
  res : TermKeyResult
  tk : TermKey
  store : TermKeyKey → TermKeyKey
  nbytes : ℕ

namespace TermKey
variable (tk : TermKey)

/-- `CHARAT(0)` to `CHARAT(buffcount - 1)`. -/
def window : Option (List Byte) :=
  if 0 ≤ tk.buffstart ∧ tk.buffstart + tk.buffcount ≤ tk.buffer.length then
    some ((tk.buffer.drop tk.buffstart.toNat).take tk.buffcount)
  else none

/-- `buffstart += n; buffcount -= n` -/
def passed (n : ℕ) : TermKey := { tk with buffstart := tk.buffstart + n, buffcount := tk.buffcount - n }

/-- `buffstart--; buffcount++` -/
def steppedBack : TermKey := { tk with buffstart := tk.buffstart - 1, buffcount := tk.buffcount + 1 }

/-- The bytes of a sequence that was reported without them are left behind. -/
def skipHightide : Option TermKey :=
  if tk.hightide ≤ tk.buffcount then some { tk.passed tk.hightide with hightide := 0 } else none

/-- The data is slid down to stop it running away. -/
def slide : Option TermKey :=
  let halfsize := tk.buffsize / 2
  if halfsize < tk.buffstart then do
    let buffer ← memcpy tk.buffer 0 (tk.buffer.drop halfsize) halfsize
    some { tk with buffer, buffstart := tk.buffstart - halfsize }
  else some tk

def stored (r : Reply) : TermKey := { tk with hightide := r.hightide.getD tk.hightide, csi := r.csi }

def eatBytes (count : ℕ) : TermKey :=
  if tk.buffcount ≤ count then { tk with buffstart := 0, buffcount := 0 } else tk.passed count

def moveDown : Option TermKey :=
  if tk.buffstart < 0 then none
  else if tk.buffstart = 0 then some tk
  else (memmove tk.buffer 0 tk.buffstart.toNat tk.buffcount).map fun buffer =>
    { tk with buffer, buffstart := 0 }

end TermKey

/-- What stands behind an escape is an Alt key, of which the escape is the first byte. -/
def Peek.escaped (p : Peek) : Peek :=
  if p.res = .key then ⟨.key, p.tk.steppedBack, addModifiers keymodAlt ∘ p.store, p.nbytes + 1⟩
  else ⟨p.res, p.tk.steppedBack, p.store, p.nbytes⟩

/-- `peekkey_simple`, with the full `peekkey` for what stands behind an escape. -/
def peekkeySimple (nested : TermKey → Option Peek) (tk : TermKey) (w : List Byte) (force : Bool) :
    Option Peek :=
  match w with
  | 0x1b :: _ :: _ => (nested (tk.passed 1)).map Peek.escaped
  | w => (simpleReply tk.toInterpretation tk.csi w force).map fun r => ⟨r.res, tk, r.store, r.nbytes⟩

/-- `peekkey`; every nested call stands one byte further on. -/
def peekkeyFuel : ℕ → TermKey → Bool → Option Peek
  | 0, _, _ => none
  | fuel + 1, tk, force =>
    if ¬ tk.isStarted then some ⟨.error, tk, id, 0⟩
    else do
      let tk ← tk.skipHightide
      let w ← tk.window
      match ← tryDrivers tk.toInterpretation tk.csi w force tk.drivers false id with
      | .settled r =>
        if r.res = .key then (tk.stored r).slide.map fun tk => ⟨r.res, tk, r.store, r.nbytes⟩
        else some ⟨r.res, tk.stored r, r.store, r.nbytes⟩
      | .unsettled true store => some ⟨.again, tk, store, 0⟩
      | .unsettled false store =>
        (peekkeySimple (fun tk => peekkeyFuel fuel tk force) tk w force).map fun p =>
          { p with store := p.store ∘ store }

def peekkey (tk : TermKey) (force : Bool) : Option Peek := peekkeyFuel (tk.buffcount + 1) tk force

abbrev Got := TermKeyResult × TermKey × (TermKeyKey → TermKeyKey)

def termkeyGetkey (tk : TermKey) : Option Got := do
  let p ← peekkey tk false
  match p.res with
  | .key => some (.key, p.tk.eatBytes p.nbytes, p.store)
  | .again => do
    -- peeked again in force mode for the key alone; nothing is eaten
    let q ← peekkey p.tk true
    some (.again, q.tk, q.store ∘ p.store)
  | res => some (res, p.tk, p.store)

def termkeyGetkeyForce (tk : TermKey) : Option Got := do
  let p ← peekkey tk true
  match p.res with
  | .key => some (.key, p.tk.eatBytes p.nbytes, p.store)
  | res => some (res, p.tk, p.store)

/-- The number of bytes taken, `none` for `(size_t)-1`. -/
def termkeyPushBytes (tk : TermKey) (bytes : List Byte) : Option (Option ℕ × TermKey) := do
  let tk ← tk.moveDown
  if tk.buffsize ≤ tk.buffcount then some (none, tk)
  else
    let len := min bytes.length (tk.buffsize - tk.buffcount)
    let buffer ← memcpy tk.buffer tk.buffcount bytes len
    some (some len, { tk with buffer, buffcount := tk.buffcount + len })

/-- `termkey_stop` of a TermKey that is not on a terminal: the drivers have nothing to send to it, and there are no
settings to bring back. -/
def termkeyStop (tk : TermKey) : TermKey := { tk with isStarted := false }

def termkeySetBufferSize (tk : TermKey) (size : ℕ) (fill : ℕ → Byte) : TermKey :=
  { tk with buffer := realloc tk.buffer size fill, buffsize := size }

/-- The command and the arguments of a sequence that no handler knows. -/
def termkeyInterpretCsi (tk : TermKey) (key : TermKeyKey) :
    Option (TermKeyResult × Option (CsiCmd × List ℤ)) :=
  if tk.hightide = 0 ∨ key.type ≠ .unknownCsi then some (.none, none)
  else do
    let w ← tk.window
    match splitFinal w with
    | none => some (.again, none)
    | some (body, final) => (parseCsi body final).map fun parsed => (.key, some parsed)

def termkeyInterpretString (tk : TermKey) (key : TermKeyKey) : TermKeyResult × Option (List Byte) :=
  if ¬ tk.drivers.any Driver.isCsi then (.none, none)
  else if key.type ≠ .dcs ∧ key.type ≠ .osc then (.none, none)
  else if tk.csi.savedStringId.toInt ≠ key.code.asSym then (.none, none)
  else (.key, tk.csi.savedString)

section New

def keynameTable : List (Sym × String) :=
  [(.none, "NONE"), (.backspace, "Backspace"), (.tab, "Tab"), (.enter, "Enter"), (.escape, "Escape"),
    (.space, "Space"), (.del, "DEL"), (.up, "Up"), (.down, "Down"), (.left, "Left"), (.right, "Right"),
    (.begin, "Begin"), (.find, "Find"), (.insert, "Insert"), (.delete, "Delete"), (.select, "Select"),
    (.pageup, "PageUp"), (.pagedown, "PageDown"), (.home, "Home"), (.end, "End"), (.cancel, "Cancel"),
    (.clear, "Clear"), (.close, "Close"), (.command, "Command"), (.copy, "Copy"), (.exit, "Exit"),
    (.help, "Help"), (.mark, "Mark"), (.message, "Message"), (.move, "Move"), (.open, "Open"),
    (.options, "Options"), (.print, "Print"), (.redo, "Redo"), (.reference, "Reference"),
    (.refresh, "Refresh"), (.replace, "Replace"), (.restart, "Restart"), (.resume, "Resume"),
    (.save, "Save"), (.suspend, "Suspend"), (.undo, "Undo"), (.kp0, "KP0"), (.kp1, "KP1"), (.kp2, "KP2"),
    (.kp3, "KP3"), (.kp4, "KP4"), (.kp5, "KP5"), (.kp6, "KP6"), (.kp7, "KP7"), (.kp8, "KP8"),
    (.kp9, "KP9"), (.kpenter, "KPEnter"), (.kpplus, "KPPlus"), (.kpminus, "KPMinus"), (.kpmult, "KPMult"),
    (.kpdiv, "KPDiv"), (.kpcomma, "KPComma"), (.kpperiod, "KPPeriod"), (.kpequals, "KPEquals")]

/-- `termkey_register_keyname`: the table and the symbol; the symbol 0 asks for a new one. -/
def termkeyRegisterKeyname (keynames : List (Option (List Byte))) (sym : TermKeySym) (name : List Byte) :
    Option (List (Option (List Byte)) × TermKeySym) :=
  let sym := if sym = 0 then (keynames.length : ℤ) else sym
  if sym < 0 then none
  else
    let keynames := keynames ++ List.replicate (sym.toNat + 1 - keynames.length) none
    some (keynames.set sym.toNat (some name), sym)

def initKeynames : Option (List (Option (List Byte))) :=
  run (fun keynames (sym, name) => (termkeyRegisterKeyname keynames (Sym.val sym) (bytesOf name)).map Prod.fst)
    (List.replicate 64 none) keynameTable

def initC0 (ctrl : ℕ) : KeyInfo :=
  if ctrl = 0x09 then symInfo .tab
  else if ctrl = 0x0d then symInfo .enter
  else if ctrl = 0x1b then symInfo .escape
  else symInfo .none

/-- The space flag is a canonical one too. -/
def termkeySetFlags (s : Interpretation) (newflags : BitVec 32) : Interpretation :=
  { s with
    flags := newflags
    canonflags :=
      if HasFlag newflags flagSpacesymbol then s.canonflags ||| canonSpacesymbol
      else s.canonflags &&& ~~~canonSpacesymbol }

/-- `termkey_new_abstract`; `fill` is what the new buffer holds. -/
def termkeyNewAbstract (drivers : List Driver) (flags : BitVec 32) (fill : ℕ → Byte) : Option TermKey := do
  let keynames ← initKeynames
  some {
    toInterpretation := termkeySetFlags ⟨0, 0, false, initC0⟩ flags
    drivers
    buffer := realloc [] 256 fill
    buffstart := 0
    buffcount := 0
    buffsize := 256
    hightide := 0
    csi := ⟨0, none⟩
    isStarted := ¬ HasFlag flags flagNostart
    keynames }

end New

end MutantC.Libtermkey
