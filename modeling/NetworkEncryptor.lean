import NetworkEncryptor.Lib.Mem
import NetworkEncryptor.Config
import NetworkEncryptor.EthParse
import NetworkEncryptor.Lib.Attempt
import NetworkEncryptor.L2Crypto
import NetworkEncryptor.Nonces
import NetworkEncryptor.Reassembly
import NetworkEncryptor.WireFormat
import NetworkEncryptor.CryptoRoute
import NetworkEncryptor.Fragments
import NetworkEncryptor.Delivery
import NetworkEncryptor.Bpf
import NetworkEncryptor.Dataplane
import NetworkEncryptor.PacketWrite
import NetworkEncryptor.Outcomes
import NetworkEncryptor.PacketSpec
import NetworkEncryptor.Egress
import NetworkEncryptor.WireSize
import NetworkEncryptor.Ingress
import NetworkEncryptor.Tunnel
import NetworkEncryptor.Lib.Run
import NetworkEncryptor.Seals
import NetworkEncryptor.Integrity
import NetworkEncryptor.Lib.Chains
import NetworkEncryptor.Xsk
import NetworkEncryptor.Custody
import NetworkEncryptor.RxLoop
import NetworkEncryptor.Lib.Partition
import NetworkEncryptor.Pipeline
import NetworkEncryptor.Conservation
import NetworkEncryptor.FillBudget
import NetworkEncryptor.FragWindow
import NetworkEncryptor.Lib.OnesComplement
import NetworkEncryptor.Lib.Ways
import NetworkEncryptor.MssClamp
import NetworkEncryptor.Routes
import NetworkEncryptor.Sequences
import NetworkEncryptor.Idle
import NetworkEncryptor.Lib.Fifo
import NetworkEncryptor.RingSteps
import NetworkEncryptor.RoundTrip
import NetworkEncryptor.RouteSteps
import NetworkEncryptor.Segments
import NetworkEncryptor.Shutdown
import NetworkEncryptor.Chunks
import NetworkEncryptor.FlowOrder
import NetworkEncryptor.AccessCrypto
import NetworkEncryptor.Balance
import NetworkEncryptor.Clamping
import NetworkEncryptor.PacketInverse
import NetworkEncryptor.SegmentBudget
import NetworkEncryptor.SplitSteps
import NetworkEncryptor.Threads
import NetworkEncryptor.AccessPath
import NetworkEncryptor.Lifecycle
import NetworkEncryptor.XskRing
import NetworkEncryptor.PoolRing
import NetworkEncryptor.Drain
import NetworkEncryptor.ExactlyOnce
import NetworkEncryptor.CpuMap
import NetworkEncryptor.Isolation
