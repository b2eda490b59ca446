import MutantC.Lib.Handles
import MutantC.Lib.Iteration

/-! Objects and their curried methods: the init and destroy functions of the four classes, and `new` and
`delete` of an allocator. A trampoline is known by the field of the object that it was curried for. -/

namespace MutantC.Classes
open Handles Iteration

inductive Class
  | gcAllocator
  | string
  | posixTerminal
  | fancyrl
deriving DecidableEq

/-- The fields with curried methods, of all the classes. -/
inductive Method
  | destroy | prealloc | alloc | realloc | allocAtomic | free | new | delete
  | getLength | set | insertCstrAt | appendCstr | print
  | setupTerm | restoreTerm | sigHandle | readKey | writeChar | writeCstr | getTermSize | getCurPos
deriving DecidableEq

/-- Objects by number; the first is `gc_allocator_class_base`, which is no object of `new`. -/
structure Heap where
  fields : Table (ℕ × Method)
  cls : ℕ → Option Class
  /-- Between its init and its end an object is live. -/
  live : ℕ → Bool
  hasTk : ℕ → Bool
  nextObject : ℕ

def startHeap : Heap where
  fields := emptyTable
  cls := Function.update (fun _ => none) 0 (some .gcAllocator)
  live _ := false
  hasTk _ := false
  nextObject := 1

/-- `this->m = curry_func(.., this)` for each of the fields. -/
def curryFields (this : ℕ) (ms : List Method) (h : Heap) : Heap :=
  { h with fields := acquireAll h.fields (ms.map fun m => (this, m)) }

/-- `free_curry(this->m); this->n = NULL;` for each pair of fields. -/
def uncurryFields (this : ℕ) (ps : List (Method × Method)) (h : Heap) : Heap :=
  { h with fields := releaseAll h.fields (ps.map fun p => ((this, p.1), (this, p.2))) }

def gcAllocatorClassInit (this : ℕ) (h : Heap) : Heap :=
  curryFields this
    [.destroy, .prealloc, .alloc, .realloc, .allocAtomic, .free, .new, .delete] h

def gcAllocatorClassDestroy (this : ℕ) (h : Heap) : Heap :=
  uncurryFields this
    [(.destroy, .destroy), (.prealloc, .prealloc), (.alloc, .alloc), (.realloc, .realloc),
      (.free, .free), (.new, .free), (.delete, .free)] h

def stringClassInit (this : ℕ) (h : Heap) : Heap :=
  curryFields this [.destroy, .getLength, .set, .insertCstrAt, .appendCstr, .print] h

def stringClassDestroy (this : ℕ) (h : Heap) : Heap :=
  uncurryFields this
    [(.getLength, .getLength), (.insertCstrAt, .insertCstrAt), (.appendCstr, .insertCstrAt),
      (.set, .set), (.print, .print)] h

def posixTerminalClassInit (this : ℕ) (h : Heap) : Heap :=
  curryFields this
    [.destroy, .setupTerm, .restoreTerm, .sigHandle, .readKey, .writeChar, .writeCstr, .getTermSize,
      .getCurPos] h

/-- `termkey_destroy` needs the handle that `setup_term` made. -/
def posixTerminalClassDestroy (this : ℕ) (h : Heap) : Option Heap :=
  let h := uncurryFields this
    [(.setupTerm, .setupTerm), (.restoreTerm, .restoreTerm), (.sigHandle, .sigHandle),
      (.getTermSize, .getTermSize), (.getCurPos, .getCurPos), (.readKey, .readKey),
      (.writeChar, .writeChar), (.writeCstr, .writeCstr)] h
  if h.hasTk this then some h else none

def fancyrlClassInit (this : ℕ) (h : Heap) : Heap := curryFields this [.destroy] h

def fancyrlClassDestroy (_this : ℕ) (h : Heap) : Heap := h

def classInit : Class → ℕ → Heap → Heap
  | .gcAllocator => gcAllocatorClassInit
  | .string => stringClassInit
  | .posixTerminal => posixTerminalClassInit
  | .fancyrl => fancyrlClassInit

def classDestroy (c : Class) (this : ℕ) (h : Heap) : Option Heap :=
  match c with
  | .gcAllocator => some (gcAllocatorClassDestroy this h)
  | .string => some (stringClassDestroy this h)
  | .posixTerminal => posixTerminalClassDestroy this h
  | .fancyrl => some (fancyrlClassDestroy this h)

/-- A call through a field goes to its trampoline, which must be there. -/
def call (o : ℕ) (m : Method) (h : Heap) : Option Unit := do
  let t ← h.fields.slot (o, m)
  guard (t ∉ h.fields.released)

def initRootAllocator (h : Heap) : Heap :=
  { gcAllocatorClassInit 0 h with live := Function.update h.live 0 true }

def gcAllocatorClassNew (this : ℕ) (objBase : Class) (h : Heap) : Option Heap := do
  call this .alloc h
  let obj := h.nextObject
  some (classInit objBase obj { h with
    cls := Function.update h.cls obj (some objBase)
    live := Function.update h.live obj true
    nextObject := obj + 1 })

def gcAllocatorClassDelete (this obj : ℕ) (h : Heap) : Option Heap := do
  call obj .destroy h
  let c ← h.cls obj
  let h ← classDestroy c obj h
  let h := uncurryFields obj [(.destroy, .destroy)] h
  call this .free h
  some { h with live := Function.update h.live obj false }

def posixTerminalClassSetupTerm (this : ℕ) (h : Heap) : Option Heap := do
  call this .getTermSize h
  some { h with hasTk := Function.update h.hasTk this true }

inductive Op
  | initRoot
  | new (allocator : ℕ) (objBase : Class)
  | delete (allocator obj : ℕ)
  | setupTerm (obj : ℕ)
deriving DecidableEq

def step (h : Heap) : Op → Option Heap
  | .initRoot => some (initRootAllocator h)
  | .new a c => (call a .new h).bind fun _ => gcAllocatorClassNew a c h
  | .delete a o => (call a .delete h).bind fun _ => gcAllocatorClassDelete a o h
  | .setupTerm o => (call o .setupTerm h).bind fun _ => posixTerminalClassSetupTerm o h

end MutantC.Classes
