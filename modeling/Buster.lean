import Buster.LogRange
import Buster.Lib.RunLength
import Buster.Lib.Chain
import Buster.Record
import Buster.Dump
import Buster.Offsets
import Buster.Mapping
import Buster.Capability
import Buster.Iommu
import Buster.Decode
import Buster.Scan
import Buster.Unique
import Buster.Udp.Echo
import Buster.Udp.MainLoop
import Buster.Lib.Exit
import Buster.Udp.Init
import Buster.Framing
import Buster.Udp.Reply
import Buster.Udp.Dispatch
import Buster.Lib.OnesComplement
import Buster.Udp.Checksum
import Buster.Udp.Answer
import Buster.Reads
import Buster.ConfSpace
import Buster.Lib.CString
import Buster.Udp.Config
import Buster.Udp.Grammar
import Buster.Udp.Failure
import Buster.Udp.Portmask
import Buster.Lib.Getopt
import Buster.Udp.Args
import Buster.Udp.Extent
import Buster.SeenTable
import Buster.Udp.Lcores
import Buster.Loader
import Buster.Lib.Accumulator
import Buster.Udp.PseudoChecksum
import Buster.Lib.History
import Buster.Readback
import Buster.Tour
import Buster.Balance
import Buster.Access
import Buster.Mcfg
import Buster.Udp.Stream
import Buster.Udp.Schedule
import Buster.Lib.Ownership
import Buster.Udp.HandOver
import Buster.Udp.Startup
import Buster.Lib.Zoom
import Buster.Udp.SetUp
import Buster.Udp.Main
import Buster.Udp.SegmentChecksum
import Buster.Udp.L4Checksum
