import MitScheme.Microcode.BignumQuotient
import MitScheme.Microcode.BignumDouble
import MitScheme.Runtime.HashTableHistory
import MitScheme.Runtime.Actor
import MitScheme.Runtime.TaskCancel
import MitScheme.Runtime.TaskWait
import MitScheme.Runtime.IoRegistrationRuns
import MitScheme.Runtime.RbTreeHistory
import MitScheme.Runtime.WtTreeAlgebra
import MitScheme.Runtime.SyntaxRenameAlpha
import MitScheme.Microcode.GcCopy
import MitScheme.Sf.AnalyzeSound
import MitScheme.Runtime.RegsexpIdle
import MitScheme.Runtime.CharSetAlgebra
import MitScheme.Runtime.CharSetCompare
import MitScheme.Runtime.QuotedPrintablePackets
import MitScheme.Runtime.QuotedPrintableEncode
import MitScheme.Runtime.ThreadBarrier
import MitScheme.Runtime.TimerEvents
import MitScheme.Runtime.AbandonedLock
import MitScheme.Runtime.BlockingQueueRuns
import MitScheme.Runtime.CondVarRuns
import MitScheme.Runtime.BinHex
import MitScheme.Runtime.Base64
import MitScheme.Runtime.SyntaxRulesTemplate
import MitScheme.Runtime.IntegerDivision
import MitScheme.Runtime.SimplestRational
import MitScheme.Runtime.NumberRoundTrip
import MitScheme.Runtime.RegexpReplace
import MitScheme.Runtime.RegsexpPort
import MitScheme.Runtime.RatioFlonum
import MitScheme.Runtime.SreFold
import MitScheme.Runtime.IntegerBitLists
import MitScheme.Runtime.FixnumBits
import MitScheme.Runtime.StringSearch
import MitScheme.Runtime.UtfRoundTrip
import MitScheme.Runtime.CharCodecStream
import MitScheme.Runtime.GenericIo
import MitScheme.Runtime.BytevectorInteger
import MitScheme.Runtime.StringCopy
import MitScheme.Runtime.Sha3Standard
import MitScheme.Runtime.Sort
import MitScheme.Runtime.HtmlFormCodec
import MitScheme.Runtime.TaskGroupResults
import MitScheme.Runtime.ParameterExtents
import MitScheme.Runtime.TaskSettleRuns
import MitScheme.Runtime.TaskLocalScopes
import MitScheme.Microcode.Avltree
import MitScheme.Compiler.Immediates
import MitScheme.Sf.FreeVariables
