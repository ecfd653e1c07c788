import CommonCpp.ConditionalLock
import CommonCpp.AddressLock
import CommonCpp.Barrier
import CommonCpp.RecursiveMutex
import CommonCpp.ThreadQueue
import CommonCpp.Buffer
import CommonCpp.LinkedDouble
import CommonCpp.NamedTree
import CommonCpp.TreePath
import CommonCpp.BitArray
import CommonCpp.StringReference
import CommonCpp.MappedPointer
import CommonCpp.ReusableSlots
import CommonCpp.PagerSort
import CommonCpp.KeyfileSaved
import CommonCpp.ArrayGet
import CommonCpp.PagerThrows
import CommonCpp.PagerSet
import CommonCpp.KeyfileBuffer
import CommonCpp.Traversal
import CommonCpp.KeyfileThrows
import CommonCpp.CarDecoded
import CommonCpp.PersistGraph
import CommonCpp.Unpack
import CommonCpp.Utf8Readers
import CommonCpp.Utf8Pointer
import CommonCpp.StringSearch
import CommonCpp.StringCuts
import CommonCpp.CharacterSearch
import CommonCpp.Crc
import CommonCpp.HexBytes
import CommonCpp.BoundedEdits
import CommonCpp.KeywordSearch
import CommonCpp.StringSplit
import CommonCpp.DateTimeReports
import CommonCpp.DateEras
import CommonCpp.CidrSet
import CommonCpp.SocketAddress
import CommonCpp.Tokenizer
import CommonCpp.XMLSections
import CommonCpp.XMLText
import CommonCpp.XMLElements
import CommonCpp.PersistValues
import CommonCpp.Utilization
import CommonCpp.NamedSkip
import CommonCpp.Assoc
import CommonCpp.NamedIndex
import CommonCpp.CommandLine
import CommonCpp.Hmac
import CommonCpp.Digest
import CommonCpp.TimerTurns
import CommonCpp.TcpStream
import CommonCpp.ShellRendered
