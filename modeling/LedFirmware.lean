import LedFirmware.IapRetries
import LedFirmware.IapSession
import LedFirmware.IapCrashSafety
import LedFirmware.FrameReject
import LedFirmware.RingFifo
import LedFirmware.RingInterrupt
import LedFirmware.UpdateFrames
import LedFirmware.ImagePieces
import LedFirmware.Download
import LedFirmware.AppStart
import LedFirmware.Receive
import LedFirmware.Usart1Bounds
import LedFirmware.Usart1Progress
import LedFirmware.LedLink
import LedFirmware.CanDemux
import LedFirmware.TimeoutRecovery
import LedFirmware.CanRequests
import LedFirmware.GarbagePrefix
import LedFirmware.StaleBytes
import LedFirmware.CanQueue
import LedFirmware.CanSend
import LedFirmware.ParamRecord
import LedFirmware.AppFlag
import LedFirmware.StartPaths
import LedFirmware.NorFlashOutcomes
import LedFirmware.WriteOutcome
import LedFirmware.BudgetedLoop
import LedFirmware.UnpackLoop
import LedFirmware.NorFlashIssued
import LedFirmware.UnpackBounds
import LedFirmware.LayoutSafety
import LedFirmware.Dispatch
import LedFirmware.HandlerTable
import LedFirmware.NorFlashFaults
import LedFirmware.LockDiscipline
import LedFirmware.ReflectedCrc
import LedFirmware.Crc32Bitwise
import LedFirmware.Gregorian
import LedFirmware.RepairLoop
import LedFirmware.Odometer
import LedFirmware.TimeCheck
import LedFirmware.TimeArithmetic
import LedFirmware.TimeMonths
import LedFirmware.TimeInstant
import LedFirmware.TimeSeconds
import LedFirmware.TimeBcd
import LedFirmware.TimeStamp
import LedFirmware.TimeFailures
import LedFirmware.TimeWeekDay
import LedFirmware.TimeRepair
import LedFirmware.TableCrc
import LedFirmware.RotationOrbits
import LedFirmware.MemShift
import LedFirmware.RingBlocks
import LedFirmware.MemCycle
import LedFirmware.CharClass
import LedFirmware.Numerals
import LedFirmware.CString
import LedFirmware.StrToXL
import LedFirmware.IntegerText
import LedFirmware.BcdText
import LedFirmware.StoreLog
import LedFirmware.Vsnprintf
import LedFirmware.HexText
import LedFirmware.HexBounds
import LedFirmware.HexRoundTrip
import LedFirmware.MutexExclusion
import LedFirmware.MemMatch
import LedFirmware.MatchCaptures
import LedFirmware.MatchSearch
import LedFirmware.MatchSoundness
import LedFirmware.BlockCalculate
import LedFirmware.FirstDifference
import LedFirmware.StrCompare
import LedFirmware.StrSearch
import LedFirmware.CellBlocks
import LedFirmware.RtMemory
import LedFirmware.StrSplit
import LedFirmware.StrStrip
import LedFirmware.BcdShift
import LedFirmware.BcdNumber
import LedFirmware.LinkRing
import LedFirmware.ListPositions
import LedFirmware.FormatOutput
import LedFirmware.Vprintf
import LedFirmware.VsnprintfCursor
import LedFirmware.Vsscanf
import LedFirmware.FormatRoundTrip
import LedFirmware.MemReverse
import LedFirmware.BubblePasses
import LedFirmware.MemElementwise
import LedFirmware.BubbleSort
import LedFirmware.WrappingCounter
import LedFirmware.BufferScan
import LedFirmware.BcdRoundTrip
import LedFirmware.BitPatterns
import LedFirmware.BitOperations
import LedFirmware.BitReversal
import LedFirmware.EncryptCode
import LedFirmware.EncryptState
import LedFirmware.LedLamps
import LedFirmware.LedShows
import LedFirmware.LedDevice
import LedFirmware.FinshVm
import LedFirmware.FinshCompiler
import LedFirmware.FinshMeaning
import LedFirmware.FinshSteps
import LedFirmware.FinshNodes
import LedFirmware.FinshRun
import LedFirmware.FinshLine
import LedFirmware.FinshTyping
import LedFirmware.AppUpdate
import LedFirmware.DelayQueue
import LedFirmware.RtTimer
import LedFirmware.RtTimerTick
import LedFirmware.RtKernel
import LedFirmware.RtSemaphore
import LedFirmware.RtKernelRun
import LedFirmware.RtKernelWaiting
