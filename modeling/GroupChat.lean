import GroupChat.Library.StepSystem
import GroupChat.Library.CInt
import GroupChat.Library.CyclicWindow
import GroupChat.Library.CString
import GroupChat.Library.CFormat
import GroupChat.Library.BoundedLines
import GroupChat.Library.ByteLayout
import GroupChat.Library.Framing
import GroupChat.Library.TwoPlaces
import GroupChat.Library.BoundedFifo
import GroupChat.Library.Population
import GroupChat.Library.Enrolment
import GroupChat.Library.Monitor
import GroupChat.Library.Multicast
import GroupChat.Messages
import GroupChat.Clock
import GroupChat.Ntp
import GroupChat.NtpExchange
import GroupChat.Queue.Cyclic
import GroupChat.Queue.Refinement
import GroupChat.Queue.Unguarded
import GroupChat.Pipeline.Model
import GroupChat.Pipeline.Invariant
import GroupChat.Pipeline.Guarantees
import GroupChat.Pipeline.Atomic
import GroupChat.Pipeline.Timed
import GroupChat.Registry.Model
import GroupChat.Registry.Slots
import GroupChat.Registry.Names
import GroupChat.Registry.Guarantees
import GroupChat.Server.Model
import GroupChat.Server.Invariant
import GroupChat.Server.Sweep
import GroupChat.Server.Broadcast
import GroupChat.Server.Handshake
import GroupChat.Server.Order
import GroupChat.Server.Capacity
import GroupChat.Server.Letters
import GroupChat.Connection
import GroupChat.Publication.Invariant
import GroupChat.Publication.Window
import GroupChat.Departure.Model
import GroupChat.Departure.Refinement
import GroupChat.Departure.Harm
import GroupChat.Departure.Progress
import GroupChat.Client.Model
import GroupChat.Client.Input
import GroupChat.Client.Signals
import GroupChat.Client.Handles
import GroupChat.Chat.Model
import GroupChat.Chat.Session
import GroupChat.Chat.Invariant
import GroupChat.Chat.Refinement
import GroupChat.Chat.Delivery
import GroupChat.Chat.Order
import GroupChat.Chat.Settling
import GroupChat.Chat.Screen
import GroupChat.Chat.Delays
import GroupChat.Rig.Evaluation
import GroupChat.Rig.LossCheck
import GroupChat.Rig.Files
import GroupChat.Rig.Launch
import GroupChat.Rig.Session
