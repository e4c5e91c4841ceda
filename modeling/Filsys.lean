import Filsys.Lib.Outcome
import Filsys.Lib.Watch
import Filsys.Lib.Buffer
import Filsys.Engine.Desc
import Filsys.Engine.Mount
import Filsys.Engine.Transfer
import Filsys.Engine.Super
import Filsys.Engine.Blocks
import Filsys.Engine.Inode
import Filsys.Engine.File
import Filsys.Engine.Ops
import Filsys.Engine.Path
import Filsys.Engine.Check
import Filsys.Engine.Open
import Filsys.Engine.Salvage
import Filsys.Engine.Aside
import Filsys.Engine.Indices
import Filsys.Engine.View
import Filsys.Engine.Disk
import Filsys.Engine.Words
import Filsys.Engine.Peek
import Filsys.Engine.Preen
import Filsys.Engine.Keep
import Filsys.Engine.Record
import Filsys.Check.Sound
import Filsys.Check.Fresh
import Filsys.Check.Guard
import Filsys.Check.Recovery
import Filsys.Check.Pass
import Filsys.Mount.Refusal
import Filsys.Alloc.Chain
import Filsys.Alloc.Freelist
import Filsys.Alloc.Drain
import Filsys.Alloc.Prefix
import Filsys.Alloc.Nodes
import Filsys.Check.Nodes
import Filsys.Mount.Opened
import Filsys.Alloc.Space
import Filsys.Alloc.Stack
import Filsys.Alloc.Handout
import Filsys.Alloc.Rebuild
import Filsys.Alloc.Regrow
import Filsys.Check.Salvage
import Filsys.Check.After
import Filsys.Check.Accounts
import Filsys.Tree.Owned
import Filsys.Tree.Step
import Filsys.Tree.Bmap
import Filsys.Tree.Map
import Filsys.Tree.File
import Filsys.Tree.Write
import Filsys.Tree.Drop
import Filsys.Tree.Create
import Filsys.Lib.Layout
import Filsys.Mount.Codec
import Filsys.Mount.Bitmap
import Filsys.Check.Walks
import Filsys.Lib.Radix
import Filsys.Lib.Cut
import Filsys.Blockmap.Form
import Filsys.Blockmap.Store
import Filsys.Blockmap.Grow
import Filsys.Blockmap.Bmap
import Filsys.Blockmap.Truncate
import Filsys.Names.Fixed
import Filsys.Names.Folder
import Filsys.Names.Iter
import Filsys.Names.Finite
import Filsys.Names.Records
import Filsys.Names.Framing
import Filsys.Names.Padding
import Filsys.Names.World
import Filsys.Names.Turn
import Filsys.Names.Numbers
import Filsys.Check.Walkers
import Filsys.Check.Bounds
import Filsys.Alloc.Bound
import Filsys.Alloc.Offers
import Filsys.Alloc.Faults
import Filsys.Alloc.Icache
import Filsys.Alloc.Stride
import Filsys.Alloc.Totals
import Filsys.Mount.Spaces
import Filsys.Undo.Size
import Filsys.Blockmap.Stock
import Filsys.Blockmap.Sprout
import Filsys.Blockmap.Bytes
import Filsys.Blockmap.Trim
import Filsys.Blockmap.Record
import Filsys.Limits.MaxFile
import Filsys.Mount.Formats
import Filsys.Blockmap.Cut
import Filsys.Blockmap.Shrink
import Filsys.Limits.Tail
import Filsys.Pdp7.Beside
import Filsys.Pdp7.Words
import Filsys.Pdp7.Entries
import Filsys.Pdp7.Names
import Filsys.Blockmap.Extent
import Filsys.Limits.Fields
import Filsys.Pdp7.Size
import Filsys.Pdp7.Containers
import Filsys.Alloc.NodeSet
import Filsys.Engine.Mkfs
import Filsys.Mount.Scans
import Filsys.Engine.Probe
import Filsys.Mount.Probes
import Filsys.Engine.Replay
import Filsys.Names.Paths
import Filsys.Names.Overlong
import Filsys.Lib.Links
import Filsys.Names.Census
import Filsys.Names.Effects
import Filsys.Names.Births
import Filsys.Names.Removals
import Filsys.Names.Moves
import Filsys.Names.Histories
import Filsys.Names.Seeds
import Filsys.Names.Reached
