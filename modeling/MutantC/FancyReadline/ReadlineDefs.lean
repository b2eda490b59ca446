import MutantC.Lib.Decimal

/-! The line editor of fancyreadline: its global variables as a state, and the functions that act on
them. `none` from a function is a NULL pointer dereferenced or an access outside the buffer. The `int`
counters do not overflow here, and what the editor traces to stderr is left out: DESIGN has stderr
redirected to a file, away from the screen. -/

namespace MutantC.FancyReadline
open CBuffer Decimal

structure Editor where
  /-- The block of the last `realloc`, `none` for NULL. -/
  curFrlInput : Option (List Byte)
  curFrlInputLen : ℕ
  frlPrompt : List Byte
  frlPromptLen : ℕ
  curFrlLineIndent : ℕ
  curFrlInputLines : ℕ
  curCursorOffs : ℤ
  curCursorCol : ℤ
  doneDisplay : Bool
  stdout : List Byte

inductive LogicalKey
  | unknown | invalid | ascii | tab | enter | del | backspace | up | down | left | right | home
  | «end» | ctrlL
deriving DecidableEq

def Editor.printf (e : Editor) (bs : List Byte) : Editor := { e with stdout := e.stdout ++ bs }

/-- `"%s> "` -/
def promptText (e : Editor) : List Byte := e.frlPrompt ++ [62, 32]

def displayMainFrlPrompt (e : Editor) : Editor := e.printf (promptText e)

/-- What goes out before the input is written again: back to the first row and the prompt once more. -/
def promptRedraw (e : Editor) : List Byte :=
  if e.doneDisplay then
    [13] ++ (if 0 < e.curFrlInputLines then [27, 91] ++ decimal e.curFrlInputLines ++ [65, 13] else [])
      ++ promptText e
  else []

/-- How one byte of the input is written: a newline starts a continuation line with `"%*s %s"`, whose
width counts as its absolute value. -/
def displayByte (promptLen : ℕ) (c : Byte) : List Byte :=
  if c = 10 then
    -- `"\n\r\x1b[0K"` clears the row before the continuation prompt is padded out
    [10, 13, 27, 91, 48, 75] ++ List.replicate ((promptLen : ℤ) - 3).natAbs 32 ++ [32, 46, 46, 46, 32]
  else [c]

def cursorMove (e : Editor) : List Byte :=
  if (e.frlPromptLen : ℤ) + 2 ≤ e.curCursorCol then
    [13, 27, 91] ++ signedDecimal e.curCursorCol ++ [67]
  else []

def fancyReadlineRedisplay (e : Editor) : Option Editor :=
  let e := e.printf (promptRedraw e)
  -- an empty input returns before `done_display` is set
  if e.curFrlInputLen = 0 then some e
  else do
    let blk ← e.curFrlInput
    let txt ← cstr blk
    let e := e.printf (txt.flatMap (displayByte e.frlPromptLen))
    let e := { e with doneDisplay := true }
    some (e.printf (cursorMove e))

def startFancyReadline (prompt : List Byte) : Editor :=
  displayMainFrlPrompt
    { curFrlInput := none
      curFrlInputLen := 0
      frlPrompt := prompt
      frlPromptLen := prompt.length
      curFrlLineIndent := 0
      curFrlInputLines := 0
      curCursorOffs := 0
      curCursorCol := prompt.length + 2
      doneDisplay := false
      stdout := [] }

section
variable (fill : Editor → ℕ → Byte)

def fancyReadlineAddchar (e : Editor) (c : Byte) : Option Editor := do
  -- only at the end of the input is a character stored; the counters move anyway
  let e ← if e.curCursorOffs = e.curFrlInputLen then do
      let blk := realloc (e.curFrlInput.getD []) (e.curFrlInputLen + 2) (fill e)
      let blk ← store blk e.curFrlInputLen c
      let blk ← store blk (e.curFrlInputLen + 1) 0
      some { e with curFrlInput := some blk }
    else some e
  some { e with
    curFrlInputLen := e.curFrlInputLen + 1
    curCursorOffs := e.curCursorOffs + 1
    curCursorCol := e.curCursorCol + 1 }

def fancyReadlineAddstr (e : Editor) (s : List Byte) : Option Editor := do
  let newLen := e.curFrlInputLen + s.length + 1
  let blk := realloc (e.curFrlInput.getD []) newLen (fill e)
  let blk ← strncpy blk e.curFrlInputLen s newLen
  some { e with
    curFrlInput := some blk
    curFrlInputLen := newLen
    curCursorOffs := e.curCursorOffs + s.length
    curCursorCol := e.curCursorCol + s.length }

def fancyReadlineCalcIndent (s : Option (List Byte)) : Option ℕ := do
  let blk ← s
  let txt ← cstr blk
  match rindex txt 10 with
  -- there is only one line in the string
  | none => some (strspn txt [32])
  | some lastLine => some (strspn (txt.drop (lastLine + 1)) [32])

def fancyReadlineBackspace (e : Editor) : Option Editor :=
  if e.curCursorCol ≤ e.frlPromptLen + 2 then some e
  else if e.curFrlInputLen ≤ 0 then some e
  else do
    let blk ← e.curFrlInput
    guard (0 ≤ e.curCursorOffs - 1)
    -- the text ends at the cursor from here on, whatever stood behind it
    let blk ← store blk (e.curCursorOffs - 1).toNat 0
    let e := { e with
      curFrlInput := some blk
      curCursorOffs := e.curCursorOffs - 1
      curCursorCol := e.curCursorCol - 1
      curFrlInputLen := e.curFrlInputLen - 1 }
    fancyReadlineRedisplay (e.printf [8, 32, 8])

def fancyReadlineMoveleft (e : Editor) : Option Editor :=
  if e.curCursorCol ≤ e.frlPromptLen + 2 then some e
  else
    let e := { e with curCursorOffs := e.curCursorOffs - 1, curCursorCol := e.curCursorCol - 1 }
    fancyReadlineRedisplay (e.printf [8])

def fancyReadlineMoveright (e : Editor) : Option Editor :=
  if e.curCursorOffs = e.curFrlInputLen then some e
  else
    let e := { e with curCursorOffs := e.curCursorOffs + 1, curCursorCol := e.curCursorCol + 1 }
    fancyReadlineRedisplay (e.printf [27, 91, 49, 67])

/-- `for (i = 0; i < n; i++) fancy_readline_addchar(' ')` -/
def addSpaces : ℕ → Editor → Option Editor
  | 0, e => some e
  | n + 1, e => (fancyReadlineAddchar fill e 32).bind (addSpaces n)

def fancyReadlineEnter (e : Editor) : Option Editor := do
  let e := { e with curFrlInputLines := e.curFrlInputLines + 1 }
  let indent ← fancyReadlineCalcIndent e.curFrlInput
  let e := { e with curFrlLineIndent := indent }
  let e ← fancyReadlineAddchar fill e 10
  let e := { e with curCursorCol := e.frlPromptLen + 2 }
  let e ← addSpaces fill e.curFrlLineIndent e
  fancyReadlineRedisplay (e.printf [10, 13])

def fancyReadlineHandleLogicalChar (e : Editor) (key : LogicalKey) (rawC : Byte) : Option Editor :=
  match key with
  | .ascii => (fancyReadlineAddchar fill e rawC).bind fancyReadlineRedisplay
  | .backspace => fancyReadlineBackspace e
  | .left => fancyReadlineMoveleft e
  | .right => fancyReadlineMoveright e
  | .enter => fancyReadlineEnter fill e
  -- the other logical keys have an empty case or none
  | _ => some e

def Printable := { c : Byte // 32 ≤ c ∧ c ≤ 126 }

deriving instance DecidableEq for Printable

inductive Key
  | char (c : Printable)
  | enter
  | backspace
  | left
  | right
deriving DecidableEq

def press (e : Editor) : Key → Option Editor
  | .char c => fancyReadlineHandleLogicalChar fill e .ascii c.val
  | .enter => fancyReadlineHandleLogicalChar fill e .enter 13
  | .backspace => fancyReadlineHandleLogicalChar fill e .backspace 127
  | .left => fancyReadlineHandleLogicalChar fill e .left 27
  | .right => fancyReadlineHandleLogicalChar fill e .right 27

end

/-! ### Reading keys -/

/-- `read(STDIN_FILENO, p, 1)`, its result ignored: at the end of the input `*p` stays what it was. -/
def readByte (old : Byte) : List Byte → Byte × List Byte
  | [] => (old, [])
  | b :: input => (b, input)

/-- The switches of `fancy_readline_read_esc` on the two bytes of `seq_buf`. -/
def escKey (b₀ b₁ : Byte) : LogicalKey :=
  if b₀ = 91 then
    if 48 ≤ b₁ ∧ b₁ ≤ 57 then .invalid
    else if b₁ = 65 then .up
    else if b₁ = 66 then .down
    else if b₁ = 67 then .right
    else if b₁ = 68 then .left
    else if b₁ = 72 then .home
    else if b₁ = 70 then .end
    else .unknown
  else if b₀ = 79 then
    if b₁ = 72 then .home
    else if b₁ = 70 then .end
    else .unknown
  else .unknown

section
variable (fill : Editor → ℕ → Byte) (seqBuf : Editor → Byte × Byte)

/-- `seqBuf` is what `seq_buf` holds before the two reads. -/
def fancyReadlineReadEsc (e : Editor) (input : List Byte) : LogicalKey × List Byte :=
  let (b₀, input) := readByte (seqBuf e).1 input
  let (b₁, input) := readByte (seqBuf e).2 input
  (escKey b₀ b₁, input)

/-- The result, the input that is left and the editor afterwards. -/
def fancyReadlineHandleRawChar (e : Editor) (c : Byte) (input : List Byte) :
    Option (Bool × List Byte × Editor) :=
  if c = 3 then some (false, input, e)
  else if c = 4 then some (false, input, e)
  else
    let (logChar, input) :=
      if c = 27 then fancyReadlineReadEsc seqBuf e input
      else if c = 13 then (.enter, input)
      else if c = 127 then (.backspace, input)
      else if 32 ≤ c ∧ c ≤ 126 then (.ascii, input)
      else (.unknown, input)
    if logChar = .invalid then some (false, input, e)
    else (fancyReadlineHandleLogicalChar fill e logChar c).map fun e => (true, input, e)

/-- One call of `fancy_readline_handle_raw_char` by the loop: the input, the character it begins with
included, and the editor, before and after. -/
structure Call where
  input : List Byte
  before : Editor
  result : Bool
  rest : List Byte
  after : Editor

/-- The loop of `do_fancy_readline` as long as there is input, one call after the other; every call
takes at least one byte. -/
def readLoop : ℕ → Editor → List Byte → Option (List Call)
  | 0, _, _ => some []
  | _ + 1, _, [] => some []
  | fuel + 1, e, c :: input => do
    let (result, rest, e') ← fancyReadlineHandleRawChar fill seqBuf e c input
    let calls ← (if result then readLoop fuel e' rest else some [])
    some (⟨c :: input, e, result, rest, e'⟩ :: calls)

def doFancyReadline (prompt : List Byte) (input : List Byte) : Option (List Call) :=
  readLoop fill seqBuf input.length (startFancyReadline prompt) input

end

end MutantC.FancyReadline
