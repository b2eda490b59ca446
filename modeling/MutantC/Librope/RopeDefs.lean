import MutantC.Lib.Iteration
import MutantC.Lib.SkipList
import MutantC.Librope.Utf8

/-! The rope of librope, `ROPE_WCHAR` off. A rope is the head structure with the blocks it owns;
`none` from an operation is a failed assertion or an access outside the live blocks. -/

namespace MutantC.Librope
open CBuffer Iteration SkipList

def ropeNodeStrSize : ℕ := 136
def ropeMaxHeight : ℕ := 60
def ropeBias : ℕ := 25

abbrev Ptr := ℕ

/-- `&r->head`; the head lies inline in the block of the rope itself. -/
def headPtr : Ptr := 0

/-- `rope_skip_node`: `skip` is `skip_size` and `next` is `node`. -/
abbrev SkipNode := Link Ptr

/-- `rope_node_t` without its flexible array `nexts`, which `Rope.nexts` keeps. -/
structure RopeNode where
  str : List Byte
  numBytes : ℕ
  height : ℕ
deriving DecidableEq

structure Rope where
  numChars : ℕ
  numBytes : ℕ
  nodes : Ptr → Option RopeNode
  nexts : Ptr → ℕ → SkipNode
  /-- The address of the next block `alloc` hands out. -/
  brk : Ptr
  /-- How often `rand` has been called. -/
  rands : ℕ

abbrev RopeIter := ℕ → SkipNode

/-- What the rope gets from outside: the results of `rand` and what a fresh block holds. -/
structure Env where
  rand : ℕ → ℕ
  junk : Ptr → RopeNode
  junkNexts : Ptr → ℕ → SkipNode
  length_junk : ∀ p, (junk p).str.length = ropeNodeStrSize

inductive RopeResult
  | ok
  | invalidUtf8
deriving DecidableEq

variable (env : Env)

def ropeNew2 : Rope where
  numChars := 0
  numBytes := 0
  nodes p := if p = headPtr then some { env.junk headPtr with numBytes := 0, height := 1 } else none
  nexts p i := if p = headPtr ∧ i = 0 then ⟨0, none⟩ else env.junkNexts p i
  brk := headPtr + 1
  rands := 0

def Rope.getNext (r : Rope) (p : Ptr) (i : ℕ) : Option SkipNode :=
  (r.nodes p).bind fun n => if i < n.height then some (r.nexts p i) else none

def Rope.setNext (r : Rope) (p : Ptr) (i : ℕ) (s : SkipNode) : Option Rope :=
  (r.nodes p).bind fun n =>
    if i < n.height then
      some { r with nexts := fun q j => if q = p ∧ j = i then s else r.nexts q j }
    else none

def Rope.setNode (r : Rope) (p : Ptr) (n : RopeNode) : Rope :=
  { r with nodes := fun q => if q = p then some n else r.nodes q }

def Rope.freeNode (r : Rope) (p : Ptr) : Option Rope :=
  (r.nodes p).map fun _ => { r with nodes := fun q => if q = p then none else r.nodes q }

def RopeIter.set (iter : RopeIter) (i : ℕ) (s : SkipNode) : Option RopeIter :=
  if i < ropeMaxHeight then some fun j => if j = i then s else iter j else none

def ropeCharCount (r : Rope) : ℕ := r.numChars

def randomHeightLoop (rand : ℕ → ℕ) : ℕ → ℕ → ℕ → ℕ × ℕ
  | 0, height, calls => (height, calls)
  | fuel + 1, height, calls =>
    if height < ropeMaxHeight - 1 then
      if rand calls % 100 < ropeBias then randomHeightLoop rand fuel (height + 1) (calls + 1)
      else (height, calls + 1)
    else (height, calls)

def randomHeight (rand : ℕ → ℕ) (calls : ℕ) : ℕ × ℕ := randomHeightLoop rand ropeMaxHeight 1 calls

def allocNode (r : Rope) (height : ℕ) : Ptr × Rope :=
  (r.brk,
    { r with
      nodes := fun q => if q = r.brk then some { env.junk r.brk with height := height } else r.nodes q
      nexts := fun q => if q = r.brk then env.junkNexts r.brk else r.nexts q
      brk := r.brk + 1 })

/-- The search loop of `iter_at_char_pos`, standing on `e` at level `height`. -/
def iterLoop (r : Rope) : ℕ → Ptr → ℕ → ℕ → RopeIter → Option (Ptr × ℕ × RopeIter)
  | 0, _, _, _, _ => none
  | fuel + 1, e, height, offset, iter => do
    let s ← r.getNext e height
    -- to the right while the link ends before the position, else one level down
    if s.skip < offset then
      let node ← r.nodes e
      guard (e = headPtr ∨ node.numBytes ≠ 0)
      let next ← s.next
      iterLoop r fuel next height (offset - s.skip) iter
    else
      let iter ← iter.set height ⟨offset, some e⟩
      match height with
      | 0 => some (e, offset, iter)
      | height + 1 => iterLoop r fuel e height offset iter

def iterAtCharPos (r : Rope) (charPos : ℕ) : Option (Ptr × RopeIter) := do
  guard (charPos ≤ r.numChars)
  let head ← r.nodes headPtr
  let (e, offset, iter) ← iterLoop r (r.brk + ropeMaxHeight + 1) headPtr (head.height - 1) charPos
    fun _ => ⟨0, none⟩
  guard (offset ≤ ropeNodeStrSize)
  guard ((iter 0).next = some e)
  some (e, iter)

/-- `numChars` is the amount added to every link, negative where the source adds `-n`. -/
def updateOffsetList (r : Rope) (iter : RopeIter) (numChars : ℤ) : Option Rope := do
  let head ← r.nodes headPtr
  forRange 0 head.height (fun i r => do
    let p ← (iter i).next
    let s ← r.getNext p i
    r.setNext p i { s with skip := (s.skip + numChars).toNat }) r

/-- The loop of `insert_at` that raises the head above a new node. -/
def growHead (newHeight : ℕ) (r : Rope) (iter : RopeIter) : Option (Rope × RopeIter) := do
  let head ← r.nodes headPtr
  forRange head.height (newHeight + 1) (fun maxHeight (r, iter) => do
    let head ← r.nodes headPtr
    let r := r.setNode headPtr { head with height := head.height + 1 }
    let s ← r.getNext headPtr (maxHeight - 1)
    let r ← r.setNext headPtr maxHeight s
    let iter ← iter.set maxHeight (iter (maxHeight - 1))
    some (r, iter)) (r, iter)

def linkLevels (newNode : Ptr) (newHeight numChars : ℕ) (r : Rope) (iter : RopeIter) :
    Option (Rope × RopeIter) :=
  forRange 0 newHeight (fun i (r, iter) => do
    let p ← (iter i).next
    let prev ← r.getNext p i
    let r ← r.setNext newNode i ⟨numChars + prev.skip - (iter i).skip, prev.next⟩
    let r ← r.setNext p i ⟨(iter i).skip, some newNode⟩
    let iter ← iter.set i ⟨numChars, some newNode⟩
    some (r, iter)) (r, iter)

def shiftLevels (newHeight maxHeight numChars : ℕ) (r : Rope) (iter : RopeIter) :
    Option (Rope × RopeIter) :=
  forRange newHeight maxHeight (fun i (r, iter) => do
    let p ← (iter i).next
    let s ← r.getNext p i
    let r ← r.setNext p i { s with skip := s.skip + numChars }
    let iter ← iter.set i { iter i with skip := (iter i).skip + numChars }
    some (r, iter)) (r, iter)

def insertAt (r : Rope) (iter : RopeIter) (str : List Byte) (numBytes numChars : ℕ) :
    Option (Rope × RopeIter) := do
  let (newHeight, rands) := randomHeight env.rand r.rands
  let (newNode, r) := allocNode env { r with rands } newHeight
  let node ← r.nodes newNode
  let newStr ← memcpy node.str 0 str numBytes
  let r := r.setNode newNode { node with str := newStr, numBytes := numBytes }
  guard (newHeight < ropeMaxHeight)
  let (r, iter) ← growHead newHeight r iter
  let (r, iter) ← linkLevels newNode newHeight numChars r iter
  let head ← r.nodes headPtr
  let (r, iter) ← shiftLevels newHeight head.height numChars r iter
  some ({ r with numChars := r.numChars + numChars, numBytes := r.numBytes + numBytes }, iter)

/-- Where `rope_insert_at_iter` puts the bytes: a node with room for them, or none. -/
structure InsertSpot where
  e : Ptr
  iter : RopeIter
  offsetBytes : ℕ
  here : Bool

def insertSpot (r : Rope) (e : Ptr) (iter : RopeIter) (offsetBytes numInsertedBytes : ℕ) :
    Option InsertSpot := do
  let node ← r.nodes e
  if node.numBytes + numInsertedBytes ≤ ropeNodeStrSize then some ⟨e, iter, offsetBytes, true⟩
  -- the position is the end of a full node, so the next node may take the bytes
  else if offsetBytes = node.numBytes then
    match (← r.getNext e 0).next with
    | none => some ⟨e, iter, offsetBytes, false⟩
    | some next =>
      let nextNode ← r.nodes next
      if nextNode.numBytes + numInsertedBytes ≤ ropeNodeStrSize then
        let iter ← forRange 0 nextNode.height
          (fun i iter => RopeIter.set iter i { iter i with next := some next }) iter
        some ⟨next, iter, 0, true⟩
      else some ⟨e, iter, offsetBytes, false⟩
  else some ⟨e, iter, offsetBytes, false⟩

def insertHere (r : Rope) (e : Ptr) (iter : RopeIter) (offsetBytes : ℕ) (str : List Byte)
    (numInsertedBytes : ℕ) : Option Rope := do
  let node ← r.nodes e
  let moved ← if offsetBytes < node.numBytes then
      memmove node.str (offsetBytes + numInsertedBytes) offsetBytes (node.numBytes - offsetBytes)
    else some node.str
  let newStr ← memcpy moved offsetBytes str numInsertedBytes
  let r := r.setNode e { node with str := newStr, numBytes := node.numBytes + numInsertedBytes }
  let r := { r with
    numBytes := r.numBytes + numInsertedBytes
    numChars := r.numChars + strlenUtf8 str }
  updateOffsetList r iter (strlenUtf8 str)

/-- The inner loop that fills one new node: the bytes and the characters it takes from `str`. -/
def cutLoop (str : List Byte) : ℕ → ℕ → ℕ → ℕ × ℕ
  | 0, bytes, chars => (bytes, chars)
  | fuel + 1, bytes, chars =>
    if bytes < str.length then
      let size := codepointSize (str.getD bytes 0)
      if ropeNodeStrSize < size + bytes then (bytes, chars)
      else cutLoop str fuel (bytes + size) (chars + 1)
    else (bytes, chars)

def cutPiece (str : List Byte) : ℕ × ℕ := cutLoop str str.length 0 0

def insertPieces : ℕ → Rope × RopeIter → List Byte → Option (Rope × RopeIter)
  | _, s, [] => some s
  | 0, _, _ :: _ => none
  | fuel + 1, (r, iter), b :: str => do
    let piece := cutPiece (b :: str)
    let s ← insertAt env r iter (b :: str) piece.1 piece.2
    insertPieces fuel s ((b :: str).drop piece.1)

/-- The end of the node is cut off first, with its bytes left in place, and inserted again last. -/
def insertSplit (r : Rope) (e : Ptr) (iter : RopeIter) (offset offsetBytes : ℕ) (str : List Byte) :
    Option Rope := do
  let node ← r.nodes e
  let numEndBytes := node.numBytes - offsetBytes
  let first ← r.getNext e 0
  let numEndChars := first.skip - offset
  let r ← if numEndBytes = 0 then some r else do
    let r := r.setNode e { node with numBytes := offsetBytes }
    let r ← updateOffsetList r iter (-(numEndChars : ℤ))
    some { r with numChars := r.numChars - numEndChars, numBytes := r.numBytes - numEndBytes }
  let (r, iter) ← insertPieces env str.length (r, iter) str
  if numEndBytes = 0 then some r
  else
    let node ← r.nodes e
    let (r, _) ← insertAt env r iter (node.str.drop offsetBytes) numEndBytes numEndChars
    some r

def ropeInsertAtIter (r : Rope) (e : Ptr) (iter : RopeIter) (str : List Byte) :
    Option (RopeResult × Rope) := do
  let node ← r.nodes e
  let first ← r.getNext e 0
  let offset := (iter 0).skip
  -- the assertion of `rope_insert_at_iter`, made for an offset only
  guard (offset = 0 ∨ offset ≤ first.skip)
  let offsetBytes := if offset = 0 then 0 else countBytesInUtf8 node.str offset
  match bytelenAndCheckUtf8 str with
  | none => some (.invalidUtf8, r)
  | some numInsertedBytes =>
    let spot ← insertSpot r e iter offsetBytes numInsertedBytes
    let r ← if spot.here then insertHere r spot.e spot.iter spot.offsetBytes str numInsertedBytes
      else insertSplit env r e iter offset offsetBytes str
    some (.ok, r)

def ropeInsert (r : Rope) (pos : ℕ) (str : List Byte) : Option (RopeResult × Rope) := do
  let (e, iter) ← iterAtCharPos r (min pos r.numChars)
  ropeInsertAtIter env r e iter str

/-- The branch of `rope_del_at_iter` that trims a node down to size. -/
def trimNode (r : Rope) (e : Ptr) (offset removed : ℕ) : Option Rope := do
  let node ← r.nodes e
  let leadingBytes := countBytesInUtf8 node.str offset
  let removedBytes := countBytesInUtf8 (node.str.drop leadingBytes) removed
  let trailingBytes := node.numBytes - leadingBytes - removedBytes
  let newStr ← if trailingBytes = 0 then some node.str
    else memmove node.str leadingBytes (leadingBytes + removedBytes) trailingBytes
  let r := r.setNode e { node with str := newStr, numBytes := node.numBytes - removedBytes }
  let r := { r with numBytes := r.numBytes - removedBytes }
  forRange 0 node.height (fun i r => do
    let s ← r.getNext e i
    r.setNext e i { s with skip := s.skip - removed }) r

/-- The branch of `rope_del_at_iter` that removes a node from the list. -/
def unlinkNode (r : Rope) (e : Ptr) (iter : RopeIter) (removed : ℕ) : Option Rope := do
  let node ← r.nodes e
  let r ← forRange 0 node.height (fun i r => do
    let p ← (iter i).next
    let s ← r.getNext e i
    let q ← r.getNext p i
    r.setNext p i ⟨q.skip + (s.skip - removed), s.next⟩) r
  some { r with numBytes := r.numBytes - node.numBytes }

def lowerLinks (r : Rope) (iter : RopeIter) (height removed : ℕ) : Option Rope := do
  let head ← r.nodes headPtr
  forRange height head.height (fun i r => do
    let p ← (iter i).next
    let s ← r.getNext p i
    r.setNext p i { s with skip := s.skip - removed }) r

/-- One round of the loop of `rope_del_at_iter`, from offset `offset` of `e` on: the rope, the node
to go on with, and how many characters the round has removed. -/
def delRound (r : Rope) (e : Ptr) (offset : ℕ) (iter : RopeIter) (length : ℕ) :
    Option (Rope × Option Ptr × ℕ) := do
  let node ← r.nodes e
  let first ← r.getNext e 0
  let numChars := first.skip
  let removed := min length (numChars - offset)
  -- a node that loses all its characters is taken out, but for the head
  if removed < numChars ∨ e = headPtr then
    let r ← trimNode r e offset removed
    let r ← lowerLinks r iter node.height removed
    some (r, some e, removed)
  else
    let r ← unlinkNode r e iter removed
    let s ← r.getNext e 0
    let r ← r.freeNode e
    let r ← lowerLinks r iter node.height removed
    some (r, s.next, removed)

/-- At the end of its node the loop goes on with the next one. -/
def skipEnd (r : Rope) (e : Ptr) (offset : ℕ) (iter : RopeIter) : Option (Ptr × ℕ) := do
  let first ← r.getNext e 0
  if offset = first.skip then
    let p ← (iter 0).next
    let s ← r.getNext p 0
    let e ← s.next
    some (e, 0)
  else some (e, offset)

def ropeDelLoop : ℕ → Rope → Option Ptr → ℕ → RopeIter → ℕ → Option Rope
  | _, r, _, _, _, 0 => some r
  | 0, _, _, _, _, _ + 1 => none
  | fuel + 1, r, e, offset, iter, length + 1 => do
    let e ← e
    let (e, offset) ← skipEnd r e offset iter
    let (r, e, removed) ← delRound r e offset iter (length + 1)
    ropeDelLoop fuel r e offset iter (length + 1 - removed)

def ropeDelAtIter (r : Rope) (e : Ptr) (iter : RopeIter) (length : ℕ) : Option Rope :=
  ropeDelLoop (r.brk + 1) { r with numChars := r.numChars - length } (some e) (iter 0).skip iter
    length

def ropeDel (r : Rope) (pos length : ℕ) : Option Rope := do
  let pos := min pos r.numChars
  let length := min length (r.numChars - pos)
  let (e, iter) ← iterAtCharPos r pos
  ropeDelAtIter r e iter length

def ropeFreeLoop : ℕ → Rope → Option Ptr → Option Rope
  | _, r, none => some r
  | 0, _, some _ => none
  | fuel + 1, r, some n => do
    let s ← r.getNext n 0
    let r ← r.freeNode n
    ropeFreeLoop fuel r s.next

def ropeFree (r : Rope) : Option Rope := do
  let s ← r.getNext headPtr 0
  let r ← ropeFreeLoop r.brk r s.next
  r.freeNode headPtr

def ropeNodesFrom (r : Rope) : ℕ → Option Ptr → Option (List RopeNode)
  | _, none => some []
  | 0, some _ => none
  | fuel + 1, some n => do
    let node ← r.nodes n
    let s ← r.getNext n 0
    let rest ← ropeNodesFrom r fuel s.next
    some (node :: rest)

def ropeForeach (r : Rope) : Option (List RopeNode) := ropeNodesFrom r (r.brk + 1) (some headPtr)

def ropeNodeData (n : RopeNode) : List Byte := n.str

/-- The first `num_bytes` bytes of every node, from the head along `nexts[0]`. -/
def ropeContent (r : Rope) : Option (List Byte) :=
  (ropeForeach r).map fun ns => ns.flatMap fun n => n.str.take n.numBytes

/-- The walk of `_rope_check` over the nodes; the result is the total of bytes and characters. -/
def checkLoop (r : Rope) : ℕ → Option Ptr → RopeIter → ℕ → ℕ → Option (RopeIter × ℕ × ℕ)
  | _, none, iter, numBytes, numChars => some (iter, numBytes, numChars)
  | 0, some _, _, _, _ => none
  | fuel + 1, some n, iter, numBytes, numChars => do
    let node ← r.nodes n
    let first ← r.getNext n 0
    guard (n = headPtr ∨ node.numBytes ≠ 0)
    guard (node.height ≤ ropeMaxHeight)
    guard (countBytesInUtf8 node.str first.skip = node.numBytes)
    let iter ← forRange 0 node.height (fun i (iter : RopeIter) => do
      guard ((iter i).next = some n)
      guard ((iter i).skip = numChars)
      let s ← r.getNext n i
      RopeIter.set iter i ⟨(iter i).skip + s.skip, s.next⟩) iter
    checkLoop r fuel first.next iter (numBytes + node.numBytes) (numChars + first.skip)

/-- `_rope_check`: `some ()` when every assertion holds. -/
def ropeCheck (r : Rope) : Option Unit := do
  let head ← r.nodes headPtr
  guard (head.height ≠ 0)
  guard (r.numChars ≤ r.numBytes)
  let skipOver ← r.getNext headPtr (head.height - 1)
  guard (skipOver.skip = r.numChars)
  guard (skipOver.next = none)
  -- the iterator starts at the head at every level and ends past the last node
  let start : RopeIter := fun i => ⟨0, if i < head.height then some headPtr else none⟩
  let (iter, numBytes, numChars) ← checkLoop r (r.brk + 1) (some headPtr) start 0 0
  let _ ← forRange 0 head.height (fun i (_ : Unit) => do
    guard ((iter i).next = none)
    guard ((iter i).skip = numChars)) ()
  guard (r.numBytes = numBytes)
  guard (r.numChars = numChars)

end MutantC.Librope
