import Cage.Compress.DecompressCorrect
import Cage.Core.Pidfile
import Cage.Core.PidfileSafe
import Cage.Core.Reentry
import Cage.Lib.Calls
import Cage.User.Parse
import Cage.User.Resolve
import Cage.Lib.SortedSet
import Cage.User.Reference
import Cage.User.Lookup
import Cage.User.Lazy
import Cage.User.Getters
import Cage.Core.Launch
import Cage.Lib.LinearProbe
import Cage.Util.EnvMap
import Cage.Util.Env
import Cage.Util.EnvCorrect
import Cage.Lib.Hoare
import Cage.Util.Io
import Cage.Util.Disk
import Cage.Util.DiskCalls
import Cage.Util.IoCache
import Cage.Util.IoCacheSafe
import Cage.Util.IoCacheRuns
import Cage.Util.IoAt
import Cage.Util.IoAtSafe
import Cage.Compress.InflateLocal
import Cage.Compress.GzipRoundTrip
import Cage.Sandbox.GuiMounts
import Cage.Lib.Descent
import Cage.Core.Child
import Cage.Core.ChildCorrect
import Cage.Sandbox.GuiRules
import Cage.Util.MemPathCorrect
import Cage.Sandbox.GuiInside
import Cage.Core.ChildInside
import Cage.Sandbox.GuiSockets
import Cage.Core.ChildPrecedence
import Cage.Core.ChildAgree
import Cage.Ext4.Csum
import Cage.Ext4.Util
import Cage.Lib.Program
import Cage.Ext4.Image
import Cage.Ext4.Run
import Cage.Ext4.Written
import Cage.Ext4.Contents
import Cage.Ext4.Fields
import Cage.Ext4.Coverage
import Cage.Ext4.Consistent
import Cage.Ext4.ConsistentCorrect
import Cage.Ext4.Create
import Cage.Sandbox.Ext4Fix
import Cage.Ext4.Exact
import Cage.Sandbox.ImageFs
import Cage.Sandbox.ImageRules
import Cage.Sandbox.ImageSafe
import Cage.Sandbox.ImageAtomic
import Cage.Core.EnvReaders
import Cage.Net.Reader
import Cage.Net.ReaderSafe
import Cage.Net.Writer
import Cage.Net.WriterRead
import Cage.Net.Socket
import Cage.Net.Links
import Cage.Net.LinksRead
import Cage.Net.DumpRead
import Cage.Net.DumpComplete
import Cage.Net.Setup
import Cage.Net.SetupAcks
import Cage.Net.CreateVeth
import Cage.Core.Proc
import Cage.Core.ProcKill
import Cage.Core.Host
import Cage.Core.ProcIds
import Cage.Pkg.Modules
import Cage.Pkg.Caches
import Cage.Lib.Dependencies
import Cage.Pkg.DepIndex
import Cage.Pkg.LoadOrder
import Cage.Core.Spawn
import Cage.Core.SpawnUndo
import Cage.Core.Super
import Cage.Lib.Escaping
import Cage.Sandbox.Overlay
import Cage.Core.LoginShell
import Cage.Core.GuiSources
import Cage.Core.EnvInherit
import Cage.User.Missing
import Cage.Util.Volume
import Cage.Util.MakesPath
import Cage.Util.IoMkdir
import Cage.Util.IoMkdirOwn
import Cage.Util.Rmtree
import Cage.Util.RmtreeRuns
import Cage.Util.RmtreeExact
import Cage.Util.DiskVolume
import Cage.Sandbox.GuiOwners
import Cage.Core.ChildOwners
import Cage.Sandbox.Appdir
import Cage.Sandbox.AppdirFs
import Cage.Sandbox.AppdirSlashes
import Cage.Sandbox.AppdirLoop
import Cage.Sandbox.AppdirSetup
import Cage.Compress.BitList
import Cage.Util.IoRead
import Cage.Util.IoReadExact
import Cage.Util.OpenAndRead
import Cage.Util.EnvMapGrowth
import Cage.Lib.Lines
import Cage.Sandbox.Cgroup
import Cage.Net.Forwarding
import Cage.Pkg.DepLines
import Cage.Sandbox.GuiDisplay
import Cage.Sandbox.Resolv
import Cage.User.ParseMem
import Cage.User.Grammar
import Cage.User.ParseFrees
import Cage.Sandbox.LoopFs
import Cage.Sandbox.LoopRules
import Cage.Sandbox.LoopAlone
import Cage.Sandbox.LoopShared
import Cage.Sandbox.PrepareOverlay
import Cage.Sandbox.OverlayReady
import Cage.Sandbox.OverlayDirs
import Cage.Ext4.Checksums
import Cage.Core.Confined
import Cage.Sandbox.LoopAgain
import Cage.Sandbox.SubtreeValue
import Cage.Sandbox.OverlayRuns
import Cage.Core.Handshake
import Cage.Core.HandshakeEnds
import Cage.Net.NatOnce
import Cage.Sandbox.Host
import Cage.Sandbox.HostCalls
import Cage.Sandbox.Relocation
import Cage.Cli.Args
import Cage.Cli.ArgsExact
import Cage.Pkg.ModLoad
import Cage.Pkg.ModLoadHands
import Cage.Pkg.ReadPieces
import Cage.Core.EnvPieces
import Cage.Core.CgroupLife
import Cage.Sandbox.MountAll
import Cage.Sandbox.MountPlan
import Cage.Lib.Ensures
import Cage.Sandbox.MountResolv
import Cage.Sandbox.Acl
import Cage.Sandbox.LoopDevice
