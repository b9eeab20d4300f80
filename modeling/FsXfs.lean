import FsXfs.Lib.Bytes
import FsXfs.Lib.Fields
import FsXfs.Lib.Patch
import FsXfs.Lib.Cache
import FsXfs.Lib.StateProg
import FsXfs.Lib.Cut
import FsXfs.Lib.Ring
import FsXfs.Basic
import FsXfs.Superblock
import FsXfs.Extent
import FsXfs.Quota
import FsXfs.Superblock.Sector
import FsXfs.Superblock.Groups
import FsXfs.Overlay
import FsXfs.Log.Record
import FsXfs.Log.Ring
import FsXfs.Log.Recover
import FsXfs.Log.Buffers
import FsXfs.Log.Dinode
import FsXfs.Log.Replay
import FsXfs.Log.Image
import FsXfs.Log.Items
import FsXfs.Log.Parse
import FsXfs.Log.Search
import FsXfs.Inode.Core
import FsXfs.Inode.Chunk
import FsXfs.Group.FreeSpace
import FsXfs.Group.FreeList
import FsXfs.Group.Rmap
import FsXfs.Group.Refcount
import FsXfs.Group.Btree
import FsXfs.Group.Trees
import FsXfs.Group.Alloc
import FsXfs.Group.Steps
import FsXfs.Group.Ledger
import FsXfs.Group.Allocations
import FsXfs.Group.Owners
import FsXfs.Superblock.Addresses
import FsXfs.File.Volume
import FsXfs.File.Mapping
import FsXfs.File.InPlace
import FsXfs.File.WriteAlloc
import FsXfs.File.TruncateTo
import FsXfs.File.BlockMap
import FsXfs.File.Exchange
import FsXfs.File.Editing
import FsXfs.File.Bounds
import FsXfs.File.ForkOrder
import FsXfs.File.Read
import FsXfs.File.ReadAt
import FsXfs.File.ShrinkInPlace
import FsXfs.File.Layout
import FsXfs.File.Swap
import FsXfs.Log.Chain
import FsXfs.Mount
import FsXfs.Commit
import FsXfs.Refusal
import FsXfs.Placement
import FsXfs.Effects
import FsXfs.OverlayCalls
import FsXfs.Logbook
import FsXfs.CachedHead
import FsXfs.Blocks
import FsXfs.WholeBlocks
import FsXfs.Journal
import FsXfs.Survival
import FsXfs.Stale
import FsXfs.Reuse
import FsXfs.Lib.Hierarchy
import FsXfs.Names.Directory
import FsXfs.Names.Operations
import FsXfs.Names.Links
import FsXfs.Names.Renaming
import FsXfs.Names.Tree
import FsXfs.Names.Relinking
import FsXfs.Names.Counts
import FsXfs.Names.Folded
import FsXfs.Names.Pointers
import FsXfs.Names.Parents
import FsXfs.Names.ShortForm
import FsXfs.Names.Cookies
import FsXfs.Lib.Access
import FsXfs.Acl.Entries
import FsXfs.Acl.Store
import FsXfs.Acl.Inherit
import FsXfs.Acl.InStep
import FsXfs.Mkfs.Plan
import FsXfs.Mkfs.Layout
import FsXfs.Mkfs.Write
import FsXfs.Mkfs.Interrupted
import FsXfs.Directory.Block
import FsXfs.Directory.Listing
import FsXfs.Directory.Whole
import FsXfs.Directory.Split
import FsXfs.Directory.Edits
import FsXfs.Directory.LayOut
import FsXfs.Directory.TypeBytes
import FsXfs.Directory.Adding
import FsXfs.Check.Checker
import FsXfs.Check.Inodes
import FsXfs.Check.Directories
