import EseLinux.PageCheck
import EseLinux.PageDehydrateRun
import EseLinux.LoggedChecksum
import EseLinux.TaggedColumnsSafe
import EseLinux.RedBlackRun
import EseLinux.RevertDeleteState
import EseLinux.ReservedTag
import EseLinux.NodePrefix
import EseLinux.KeyBracket
import EseLinux.PageTwins
import EseLinux.SevenBitDecode
import EseLinux.AfterImage
import EseLinux.RecordDiffBound
import EseLinux.PrefixWalk
import EseLinux.PrefixStore
import EseLinux.SortTrace
import EseLinux.SortReader
import EseLinux.SortSeek
import EseLinux.SortedTable
import EseLinux.StupidQueue
import EseLinux.PatchRequestList
import EseLinux.LogRedoMap
import EseLinux.JournalTail
import EseLinux.JournalAppend
import EseLinux.SmallSpace
import EseLinux.LogBufferCommit
import EseLinux.LogTorn
import EseLinux.FlushMapSize
import EseLinux.TimerDue
import EseLinux.LongValueKey
import EseLinux.PageRangeLock
import EseLinux.FlushMapBits
import EseLinux.LogAccumulate
import EseLinux.TextUpper
import EseLinux.SplitPath
import EseLinux.IoRing
import EseLinux.NlsCallers
import EseLinux.WinTime
import EseLinux.LeafInsert
