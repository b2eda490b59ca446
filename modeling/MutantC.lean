import MutantC.Lib.CBuffer
import MutantC.Lib.Iteration
import MutantC.Lib.SkipList
import MutantC.Lib.X86
import MutantC.Lib.Decimal
import MutantC.Lib.Scan
import MutantC.Lib.LineBuffer
import MutantC.Lib.Brackets
import MutantC.Lib.Handles
import MutantC.Lib.Pages
import MutantC.Lib.Ledger
import MutantC.Lib.AnsiScreen
import MutantC.Lib.Trie
import MutantC.Lib.StreamDecoder
import MutantC.CurryFunc.Trampoline
import MutantC.CurryFunc.CurryHeap
import MutantC.Classes.ClassDefs
import MutantC.Classes.ClassLedger
import MutantC.PosixTerminal.CurPos
import MutantC.PosixTerminal.TerminalDefs
import MutantC.PosixTerminal.TerminalSession
import MutantC.FancyReadline.ReadlineDefs
import MutantC.FancyReadline.ReadlineBuffer
import MutantC.FancyReadline.ReadlineSafety
import MutantC.FancyReadline.ReadlineCounters
import MutantC.FancyReadline.ReadlineRefinement
import MutantC.FancyReadline.ReadlineScreen
import MutantC.FancyReadline.ReadlineDisplay
import MutantC.FancyReadline.ReadlineKeys
import MutantC.SexpParse.SexpDefs
import MutantC.SexpParse.SexpReader
import MutantC.SexpParse.SexpForms
import MutantC.SexpParse.SexpDumpState
import MutantC.SexpParse.SexpTokenizer
import MutantC.SexpParse.SexpSession
import MutantC.SexpParse.SexpTokenBuffer
import MutantC.SexpParse.SexpNumbers
import MutantC.SexpParse.SexpRoundTrip
import MutantC.SexpParse.SexpTokenStream
import MutantC.Librope.Utf8
import MutantC.Librope.RopeDefs
import MutantC.Librope.RopeRepr
import MutantC.Librope.RopeIter
import MutantC.Librope.RopeLevels
import MutantC.Librope.RopeInsert
import MutantC.Librope.RopeSplice
import MutantC.Librope.RopeSplit
import MutantC.Librope.RopeEdit
import MutantC.Librope.RopeDelete
import MutantC.Librope.RopeCheck
import MutantC.Librope.RopeFrame
import MutantC.Librope.RopeLedger
import MutantC.StringClass.StringDefs
import MutantC.StringClass.StringContent
import MutantC.StringClass.StringPrint
import MutantC.StringClass.StringLedger
import MutantC.Libtermkey.TermkeyKeys
import MutantC.Libtermkey.CsiDriver
import MutantC.Libtermkey.TiDriver
import MutantC.Libtermkey.TermkeyDefs
import MutantC.Libtermkey.TermkeyDecode
import MutantC.Libtermkey.TermkeyStable
import MutantC.Libtermkey.TermkeyForce
import MutantC.Libtermkey.TermkeyKinds
import MutantC.Libtermkey.TermkeyBuffer
import MutantC.Libtermkey.TermkeyRuns
import MutantC.Libtermkey.TiTrie
import MutantC.Libtermkey.TiSequences
import MutantC.Libtermkey.TiFuncs
import MutantC.Libtermkey.CsiFaults
import MutantC.Libtermkey.TermkeySafety
import MutantC.Libtermkey.TermkeyText
import MutantC.Libtermkey.CsiRoundTrip
import MutantC.Libtermkey.CsiReports
import MutantC.Libtermkey.TermkeyStrings
import MutantC.PosixTerminal.ReadKey
import MutantC.PosixTerminal.ReadKeyFaults
