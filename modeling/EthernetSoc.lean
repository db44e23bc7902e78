import EthernetSoc.Lib.Cnf
import EthernetSoc.Lib.Wishbone
import EthernetSoc.Lib.Pairing
import EthernetSoc.Lib.Words
import EthernetSoc.Lib.Buffer
import EthernetSoc.Lib.SlotRing
import EthernetSoc.Lib.Text
import EthernetSoc.Lib.Congruential
import EthernetSoc.Lib.Tiling
import EthernetSoc.Lib.Assembly
import EthernetSoc.Lib.SeqSpace
import EthernetSoc.BruteForceSat
import EthernetSoc.SatSlave
import EthernetSoc.SatBus
import EthernetSoc.Pbuf
import EthernetSoc.WireFormat
import EthernetSoc.SatHost
import EthernetSoc.Dimacs
import EthernetSoc.SatTcp
import EthernetSoc.SatRecv
import EthernetSoc.SatMemory
import EthernetSoc.SatTermination
import EthernetSoc.EndToEnd
import EthernetSoc.Sessions
import EthernetSoc.SatReport
import EthernetSoc.UdpEcho
import EthernetSoc.EchoSlave
import EthernetSoc.EchoTcp
import EthernetSoc.EthernetIf
import EthernetSoc.EthernetIfInput
import EthernetSoc.SysArch
import EthernetSoc.Rand
import EthernetSoc.Measure
import EthernetSoc.Heap
import EthernetSoc.HeapOps
import EthernetSoc.HeapRuns
import EthernetSoc.Timeouts
import EthernetSoc.Startup
import EthernetSoc.TcpReceive
import EthernetSoc.TcpWindow
import EthernetSoc.TcpQueue
import EthernetSoc.TcpStream
import EthernetSoc.TcpRuns
import EthernetSoc.TcpFlow
import EthernetSoc.TcpLimits
