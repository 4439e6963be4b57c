import FatBTree.Tree.CopyDown
import FatBTree.Tree.SplitNode
import FatBTree.Tree.Ordered
import FatBTree.Tree.OrderedSplit
import FatBTree.Tree.Path
import FatBTree.Tree.Contents
import FatBTree.Tree.Keeps
import FatBTree.Tree.Repair
import FatBTree.Tree.Lookup
import FatBTree.Tree.Run
import FatBTree.Ethernet.MapSemantics
import FatBTree.Tree.Strict
import FatBTree.Switch.Frontier
import FatBTree.Switch.Snapshot
import FatBTree.Ethernet.Load
import FatBTree.Rdma.Capacity
import FatBTree.Rdma.Read
import FatBTree.Rdma.Load
import FatBTree.Rdma.Concurrent
import FatBTree.P4.ExactTable
import FatBTree.Sram.Compare
import FatBTree.Sram.Control
import FatBTree.Sram.Pipeline
import FatBTree.Ethernet.Address
import FatBTree.Tcam.MatchTable
import FatBTree.Ethernet.Update
import FatBTree.Tcam.Config
import FatBTree.Tree.Write
import FatBTree.Workload.KeyName
import FatBTree.Tree.Balance
import FatBTree.Tree.Inventory
import FatBTree.Ethernet.Representation
import FatBTree.Wire.Body
import FatBTree.Ethernet.Body
import FatBTree.P4.Bits
import FatBTree.P4.Headers
import FatBTree.Ethernet.QueryHeader
import FatBTree.Rdma.FixedSize
import FatBTree.Rdma.Requests
import FatBTree.Switch.Indices
import FatBTree.Rdma.Messages
import FatBTree.Rdma.Pipeline
import FatBTree.Tcam.Exact
import FatBTree.Tcam.RootMerge
import FatBTree.Order.Merge
import FatBTree.Tcam.NodeInfo
import FatBTree.Order.Cuts
import FatBTree.Switch.Flatten
import FatBTree.Switch.FlattenExact
import FatBTree.Switch.ParentPointers
import FatBTree.Tree.Population
import FatBTree.Order.BestFirst
import FatBTree.Switch.Greedy
import FatBTree.Sram.NodeInfo
import FatBTree.Sram.Install
import FatBTree.Order.Tiles
import FatBTree.Tcam.Sweep
import FatBTree.Rdma.ConfigTable
import FatBTree.Tcam.RowCount
import FatBTree.Rdma.ConfigKeys
import FatBTree.Rdma.Loading
import FatBTree.Rdma.TableSizes
import FatBTree.Memory.Cells
import FatBTree.Rdma.FixedArray
import FatBTree.Refinement.Runs
import FatBTree.Rdma.ArrayCalls
import FatBTree.Ethernet.Cluster
import FatBTree.Workload.Client
import FatBTree.Rdma.RangeLookup
import FatBTree.Rdma.SwitchNodes
import FatBTree.Rdma.SwitchRead
import FatBTree.Ethernet.Deployment
import FatBTree.Ethernet.Accesses
