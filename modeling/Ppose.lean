import Ppose.Foundations.BigEndian
import Ppose.Foundations.OrderedMap
import Ppose.Foundations.HashTable
import Ppose.Foundations.Chunks
import Ppose.Foundations.ClimbingStream
import Ppose.Foundations.ClockedRun
import Ppose.Foundations.Pacing
import Ppose.Foundations.SelectiveRepeat
import Ppose.Foundations.Bitmap
import Ppose.Foundations.NumberedStream
import Ppose.Foundations.BreadthFirst
import Ppose.Foundations.Branching
import Ppose.Wire.Packet
import Ppose.Wire.Onion
import Ppose.Wire.OnionSize
import Ppose.Reliability.Frame
import Ppose.Reliability.Arq
import Ppose.Reliability.Window
import Ppose.Reliability.Layout
import Ppose.Reliability.Reassembly
import Ppose.Reliability.Network
import Ppose.Reliability.Operations
import Ppose.Reliability.OneWay
import Ppose.Reliability.Tracking
import Ppose.Reliability.Delivery
import Ppose.Reliability.InOrder
import Ppose.Reliability.Redelivery
import Ppose.Reliability.SendWindow
import Ppose.Reliability.Lossless
import Ppose.Reliability.Retries
import Ppose.Reliability.SendDiscipline
import Ppose.Reliability.ReassemblyMemory
import Ppose.Reliability.Robustness
import Ppose.Reliability.Recovery
import Ppose.Admission.Invitation
import Ppose.Admission.TrustStore
import Ppose.Admission.History
import Ppose.Admission.Renewal
import Ppose.Admission.Cap
import Ppose.Admission.Spread
import Ppose.Admission.Growth
import Ppose.Session.Noise
import Ppose.Session.Session
import Ppose.Session.Authentication
import Ppose.Session.WireLoss
import Ppose.Session.Refusal
import Ppose.Session.Handshake
import Ppose.Session.OnionHandshake
import Ppose.Forwarding.Replay
import Ppose.Forwarding.Service
import Ppose.Forwarding.Relay
import Ppose.Forwarding.OnionRelay
import Ppose.Forwarding.Rendezvous
import Ppose.Forwarding.SharedSecret
import Ppose.Forwarding.Mesh
import Ppose.Session.HostileNetwork
import Ppose.Session.Meeting
import Ppose.Session.Refinement
import Ppose.Session.Fifo
import Ppose.Session.Quiescence
import Ppose.Session.Completion
import Ppose.Session.Conversation
import Ppose.Session.Cover
import Ppose.Session.DeadDirection
import Ppose.Session.Overlay
