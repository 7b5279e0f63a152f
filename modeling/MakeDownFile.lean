import MakeDownFile.ArrayRanges
import MakeDownFile.BoatRental
import MakeDownFile.ByteBuffers
import MakeDownFile.CaStore
import MakeDownFile.CallPrograms
import MakeDownFile.CallerMemory
import MakeDownFile.CngClient
import MakeDownFile.CngClientSubject
import MakeDownFile.CngHandleLedger
import MakeDownFile.CngKeyExport
import MakeDownFile.CngKeyParams
import MakeDownFile.CngKeymgmt
import MakeDownFile.CngSignature
import MakeDownFile.CngSignatureContext
import MakeDownFile.CngSignatureDup
import MakeDownFile.CngSignatureNullKey
import MakeDownFile.CngSignaturePadding
import MakeDownFile.CngSignatureParams
import MakeDownFile.CngSignatureRuns
import MakeDownFile.CngSignatureSalt
import MakeDownFile.CngSignatureSessions
import MakeDownFile.CngSignatureStream
import MakeDownFile.CngSizeNarrowing
import MakeDownFile.CngStore
import MakeDownFile.CngStoreDrain
import MakeDownFile.CngStoreFrees
import MakeDownFile.CngStoreLedger
import MakeDownFile.CngStoreSession
import MakeDownFile.CngStoreUri
import MakeDownFile.CngWorld
import MakeDownFile.ConnectLoop
import MakeDownFile.ConnectLoopRuns
import MakeDownFile.DatabasePool
import MakeDownFile.DatabasePoolRuns
import MakeDownFile.DerEncoding
import MakeDownFile.DomainSocketClients
import MakeDownFile.DomainSocketServer
import MakeDownFile.EchoServer
import MakeDownFile.EdgeServers
import MakeDownFile.EpollSockets
import MakeDownFile.ExchangeBuffers
import MakeDownFile.HeapSort
import MakeDownFile.HeldResources
import MakeDownFile.IssuerName
import MakeDownFile.LinkedLists
import MakeDownFile.ListPointers
import MakeDownFile.MemoryCopy
import MakeDownFile.MergeSort
import MakeDownFile.NameLists
import MakeDownFile.NamePrint
import MakeDownFile.NameScans
import MakeDownFile.NameText
import MakeDownFile.NameTextContract
import MakeDownFile.ObjectRecords
import MakeDownFile.Obligations
import MakeDownFile.Palindromes
import MakeDownFile.PeerCertificates
import MakeDownFile.PrefixChains
import MakeDownFile.PrintStrings
import MakeDownFile.QuickSort
import MakeDownFile.ResourceLedger
import MakeDownFile.RotatedSearch
import MakeDownFile.SignInScript
import MakeDownFile.SimpleSorts
import MakeDownFile.SkfApi
import MakeDownFile.SkfCleanup
import MakeDownFile.SkfContainers
import MakeDownFile.SkfCounts
import MakeDownFile.SkfEnumeration
import MakeDownFile.SkfHandles
import MakeDownFile.SkfListLoops
import MakeDownFile.SkfTable
import MakeDownFile.SkfTokenProgram
import MakeDownFile.SkfTokenRuns
import MakeDownFile.SmServer
import MakeDownFile.SortedMatchings
import MakeDownFile.SortedStacks
import MakeDownFile.StepRelations
import MakeDownFile.StreamEnds
import MakeDownFile.StreamTransfer
import MakeDownFile.StringPrograms
import MakeDownFile.TextBuffers
import MakeDownFile.TraceRuns
import MakeDownFile.UkeyClient
import MakeDownFile.UkeyOptions
import MakeDownFile.UkeyProgram
import MakeDownFile.UkeySessions
import MakeDownFile.UkeySignature
