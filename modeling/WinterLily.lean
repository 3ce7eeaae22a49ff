import WinterLily.Base.Transition
import WinterLily.Base.ReaderWriter
import WinterLily.Sync.Futex
import WinterLily.Sync.Exclusion
import WinterLily.Sync.Parking
import WinterLily.Sync.Progress
import WinterLily.Once.Initialisation
import WinterLily.Once.Agreement
import WinterLily.Once.Waiting
import WinterLily.Once.Solo
import WinterLily.Base.Align
import WinterLily.Base.Interval
import WinterLily.Loader.Basic
import WinterLily.Loader.Tls
import WinterLily.Access.Copy
import WinterLily.Access.Checked
import WinterLily.Base.Bytes
import WinterLily.Base.Utf8
import WinterLily.Env.Layout
import WinterLily.Env.Refinement
import WinterLily.Base.Task
import WinterLily.Loader.Segments
import WinterLily.Loader.Image
import WinterLily.Loader.Protection
import WinterLily.Env.Partition
import WinterLily.Env.Iteration
import WinterLily.Access.Decoder
import WinterLily.Access.CheckUtf8
import WinterLily.Handles.Table
import WinterLily.Loader.Placement
import WinterLily.Alloc.Mmap
import WinterLily.Alloc.Shmem
import WinterLily.Process.Create
import WinterLily.Process.Outcome
import WinterLily.Loader.Propagation
import WinterLily.Syscall.Registry
import WinterLily.Access.SliceIter
import WinterLily.Alloc.Malloc
import WinterLily.Base.Stack
import WinterLily.Entry.Stack
import WinterLily.Process.Mapping
import WinterLily.Base.File
import WinterLily.Loader.Reader
import WinterLily.Loader.SplitAscii
import WinterLily.Loader.SearchList
import WinterLily.Loader.AllocTls
import WinterLily.Loader.Lines
import WinterLily.Loader.Includes
import WinterLily.Base.Effect
import WinterLily.Loader.Lookup
import WinterLily.Loader.OpenModule
import WinterLily.Loader.Subsystem
import WinterLily.Base.Resources
import WinterLily.Loader.Descriptors
import WinterLily.Loader.Erasure
import WinterLily.Access.NextChunk
import WinterLily.Base.Stride
import WinterLily.Access.IterMut
import WinterLily.Info.Request
import WinterLily.Info.SystemInfo
import WinterLily.Info.Independence
import WinterLily.Entry.Layout
import WinterLily.Io.OpenFile
import WinterLily.Process.Resize
import WinterLily.Base.CString
import WinterLily.Entry.Arguments
import WinterLily.Loader.SplitEnds
import WinterLily.Alloc.Usable
import WinterLily.Io.WriteStr
import WinterLily.Loader.MemFns
import WinterLily.Loader.Environ
import WinterLily.Base.Dirent
import WinterLily.Loader.Glob
import WinterLily.Loader.PreadExact
import WinterLily.Info.ParseU32
import WinterLily.Info.CpuFeatures
import WinterLily.Base.X86
import WinterLily.Syscall.Trampoline
import WinterLily.Access.Jump
import WinterLily.Loader.TlsGetAddr
import WinterLily.Signals.Actions
import WinterLily.Signals.Fate
import WinterLily.Process.Join
import WinterLily.Process.Guest
import WinterLily.Base.Interception
import WinterLily.Syscall.Emulation
import WinterLily.Syscall.Boot
import WinterLily.Process.Rights
import WinterLily.Base.CriticalSection
import WinterLily.Sync.Guarded
import WinterLily.Rand.FastRand
import WinterLily.Base.Cells
import WinterLily.Entry.EntryCode
import WinterLily.Entry.Hello
import WinterLily.Once.Forced
