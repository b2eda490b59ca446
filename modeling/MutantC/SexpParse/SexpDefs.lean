import MutantC.Lib.Brackets
import MutantC.Lib.Decimal
import MutantC.Lib.Iteration

/-! The reader of sexp_parse: tokens, the tokenizer's state machine, the reader over the token list and
the printer. `none` from a function is a NULL pointer dereferenced or an access outside the token buffer. -/

namespace MutantC.SexpParse
open CBuffer Decimal Brackets Iteration

inductive Atom
  | symbol (sVal : List Byte)
  | string (sVal : List Byte)
  | int (iVal : ℤ)
deriving DecidableEq

/-- A node of `parsed_tokens`; the list itself is the list of its nodes, NULL the empty one. -/
abbrev Token := Mark Atom

inductive TokenType
  | lparen
  | rparen
  | symbol
  | string
deriving DecidableEq

inductive ParsedVal
  | null
  | cons (car cdr : ParsedVal)
  | symbol (sVal : List Byte)
  | str (sVal : List Byte)
  | int (iVal : ℤ)
deriving DecidableEq

def isInt (s : List Byte) : Bool := s.all fun b => IsDigit b

def longMax : ℕ := 2 ^ 63 - 1

/-- `atoi` of a row of digits: `strtol` stops at `LONG_MAX`, and the cast keeps the low 32 bits. -/
def atoi (s : List Byte) : ℤ := ((min (digitsValue s) longMax : ℕ) : ℤ).bmod (2 ^ 32)

def emitToken (parsedTokens : List Token) (type : TokenType) (val : List Byte) : List Token :=
  parsedTokens ++ [match type with
    | .lparen => .left
    | .rparen => .right
    | .symbol => if isInt val then .atom (.int (atoi val)) else .atom (.symbol val)
    | .string => .atom (.string val)]

/-! ### The tokenizer -/

inductive ParseState
  | start
  | inString
  | inSymbol
  | inStringEscape
deriving DecidableEq

structure Lexer where
  curState : ParseState
  /-- `none` while no token is collected: NULL at first, freed later. -/
  sValBuf : Option (List Byte)
  parsedTokens : List Token
deriving DecidableEq

def sValBufSize : ℕ := 1024

/-- `calloc(sizeof(char),1024)` -/
def callocBuf : List Byte := List.replicate sValBufSize 0

/-- `s_val_buf[0] = in_char; s_val_buf[strlen(s_val_buf)+1]=0;` -/
def startText (blk : List Byte) (c : Byte) : Option (List Byte) := do
  let blk ← store blk 0 c
  let n ← strlen blk
  store blk (n + 1) 0

/-- `s_val_buf[strlen(s_val_buf)]=in_char; s_val_buf[strlen(s_val_buf)+1]=0;` -/
def addText (blk : List Byte) (c : Byte) : Option (List Byte) := do
  let n ← strlen blk
  let blk ← store blk n c
  let n ← strlen blk
  store blk (n + 1) 0

def Lexer.emit (l : Lexer) (type : TokenType) (val : List Byte) : Lexer :=
  { l with parsedTokens := emitToken l.parsedTokens type val }

/-- `emit_token` of the collected text, `free` and back to `START`. -/
def Lexer.finish (l : Lexer) (type : TokenType) : Option Lexer := do
  let blk ← l.sValBuf
  let val ← cstr blk
  some { l.emit type val with curState := .start, sValBuf := none }

def Lexer.addText (l : Lexer) (c : Byte) : Option Lexer := do
  let blk ← l.sValBuf
  let blk ← SexpParse.addText blk c
  some { l with sValBuf := some blk }

/-- The `switch(cur_state)` of `main` for one character. -/
def lexStep (l : Lexer) (c : Byte) : Option Lexer :=
  match l.curState with
  | .start =>
    if c = 40 then some (l.emit .lparen [40])
    else if c = 41 then some (l.emit .rparen [41])
    else if c = 32 ∨ c = 13 ∨ c = 10 then some l
    -- a quote opens a string, and any other character begins a symbol
    else if c = 34 then some { l with curState := .inString, sValBuf := some callocBuf }
    else do
      let blk ← startText callocBuf c
      some { l with curState := .inSymbol, sValBuf := some blk }
  | .inStringEscape => (l.addText c).map fun l => { l with curState := .inString }
  | .inString =>
    if c = 92 then some { l with curState := .inStringEscape }
    else if c = 34 then l.finish .string
    else l.addText c
  | .inSymbol =>
    -- only `)` and a blank end a symbol; a line end goes into its text
    if c = 41 then (l.finish .symbol).map fun l => l.emit .rparen [41]
    else if c = 32 then l.finish .symbol
    else l.addText c

def lexStart : Lexer := ⟨.start, none, []⟩

def lexRun (l : Lexer) (cs : List Byte) : Option Lexer := run lexStep l cs

/-! ### The reader -/

/-- `list_last(list)->cdr = new_cons` -/
def setLastCdr : ParsedVal → ParsedVal → ParsedVal
  | .cons car .null, newCons => .cons car newCons
  | .cons car cdr, newCons => .cons car (setLastCdr cdr newCons)
  | list, _ => list

def listAppend (list v : ParsedVal) : ParsedVal :=
  if v = .null then list
  else match list with
    -- `read_list` starts from one empty cell, which takes the first value
    | .cons .null cdr => .cons v cdr
    | list => setLastCdr list (.cons v .null)

def atomVal : Atom → ParsedVal
  | .symbol s => .symbol s
  | .string s => .str s
  | .int i => .int i

/-- `(*t)->next` -/
def next : List Token → Option (List Token)
  | [] => none
  | _ :: t => some t

-- `read_form` leaves the cursor on the last token of what it read, and `read_list` steps over it
mutual

def readFormFuel : ℕ → List Token → Option (ParsedVal × List Token)
  | 0, _ => none
  | _ + 1, [] => none
  | fuel + 1, .left :: t => readListFuel fuel (.cons .null .null) t
  -- the case of `RPAREN` leaves the cursor where it is
  | _ + 1, .right :: t => some (.null, .right :: t)
  | _ + 1, .atom a :: t => some (atomVal a, .atom a :: t)

def readListFuel : ℕ → ParsedVal → List Token → Option (ParsedVal × List Token)
  | 0, _, _ => none
  | _ + 1, retval, [] => some (retval, [])
  | _ + 1, retval, .right :: t => some (retval, .right :: t)
  | fuel + 1, retval, t => do
    let (v, t) ← readFormFuel fuel t
    let t ← next t
    readListFuel fuel (listAppend retval v) t

end

/-- The value read and the cursor afterwards. -/
def readForm (t : List Token) : Option (ParsedVal × List Token) := readFormFuel (2 * t.length + 1) t

def readList (retval : ParsedVal) (t : List Token) : Option (ParsedVal × List Token) :=
  readListFuel (2 * t.length + 1) retval t

/-! ### The printer and the main loop -/

/-- What the body of the loop over the cells writes for one cell, and the rest of the loop after it. -/
def cellText (car cdr : ParsedVal) (carText cdrText : Option (List Byte)) : Option (List Byte) := do
  let carText ← if car ≠ .null then carText else some []
  let cdrText ← cdrText
  some (carText ++ (if cdr ≠ .null then [32] else []) ++ cdrText)

mutual

def dumpVal : ParsedVal → Option (List Byte)
  | .null => none
  | .str s => some ([34] ++ s ++ [34])
  | .int i => some (signedDecimal i)
  | .symbol s => some s
  | .cons car cdr =>
    (cellText car cdr (dumpVal car) (dumpCells cdr)).map fun text => [40] ++ text ++ [41]

/-- `while(c != NULL)`, from the cell `c` on. -/
def dumpCells : ParsedVal → Option (List Byte)
  | .cons car cdr => cellText car cdr (dumpVal car) (dumpCells cdr)
  | _ => some []

end

structure Session where
  lexer : Lexer
  parsedAst : ParsedVal
  stdout : List Byte
  /-- The string in it; the block is made to fit. -/
  exprbuf : List Byte

/-- `exprbuf[oldsize] = in_char; exprbuf[oldsize+1] = 0;` -/
def Session.addExpr (s : Session) (c : Byte) : Session :=
  -- a NUL goes where the terminator is
  if c = 0 then s else { s with exprbuf := s.exprbuf ++ [c] }

@[simp] theorem Session.addExpr_lexer (s : Session) (c : Byte) : (s.addExpr c).lexer = s.lexer := by
  unfold addExpr
  split_ifs <;> rfl

@[simp] theorem Session.addExpr_parsedAst (s : Session) (c : Byte) :
    (s.addExpr c).parsedAst = s.parsedAst := by
  unfold addExpr
  split_ifs <;> rfl

def Session.printf (s : Session) (bs : List Byte) : Session := { s with stdout := s.stdout ++ bs }

/-- `"\033[2J\033[H"` -/
def clearScreen : List Byte := [27, 91, 50, 74, 27, 91, 72]

/-- `" parsed tokens\n\r"` -/
def parsedTokensText : List Byte :=
  [32, 112, 97, 114, 115, 101, 100, 32, 116, 111, 107, 101, 110, 115, 10, 13]

def dumpState (s : Session) : Option Session := do
  let s := s.printf clearScreen
  let s := s.printf (decimal s.lexer.parsedTokens.length ++ parsedTokensText)
  let (ast, t) ← readForm s.lexer.parsedTokens
  let text ← dumpVal ast
  some (Session.printf { s with
    lexer := { s.lexer with parsedTokens := t }
    parsedAst := ast } text)

def mainStart : Session := ⟨lexStart, .null, [], []⟩

def mainStep (s : Session) (c : Byte) : Option Session := do
  let s ← if c = 10 ∨ c = 13 then dumpState s else some ((s.addExpr c).printf clearScreen)
  let l ← lexStep s.lexer c
  let s := Session.printf { s with lexer := l } [10, 13]
  some (s.printf ([10, 13] ++ s.exprbuf))

end MutantC.SexpParse
