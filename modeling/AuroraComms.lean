import AuroraComms.Library.Chain
import AuroraComms.Library.Run
import AuroraComms.Meta.Arr
import AuroraComms.Meta.Map
import AuroraComms.Meta.MapRepresentation
import AuroraComms.Meta.MapGrowth
import AuroraComms.Meta.MapForeach
import AuroraComms.Meta.MapRun
import AuroraComms.Line
import AuroraComms.Message
import AuroraComms.Meta.MapExact
import AuroraComms.App
import AuroraComms.Print
import AuroraComms.State
import AuroraComms.Update
import AuroraComms.Net
import AuroraComms.Output
import AuroraComms.Room
import AuroraComms.Reaction
import AuroraComms.Turn
import AuroraComms.Departure
import AuroraComms.Sweep
import AuroraComms.Framing
import AuroraComms.World
import AuroraComms.Invariant
import AuroraComms.Refinement
import AuroraComms.Safety
import AuroraComms.Intake
import AuroraComms.Presence
import AuroraComms.Library.Segments
import AuroraComms.Splitting
import AuroraComms.Library.Spread
import AuroraComms.Meta.MapCrowding
import AuroraComms.Indexed
import AuroraComms.Reading
import AuroraComms.Attribution
import AuroraComms.Effects
import AuroraComms.Outflow
import AuroraComms.Accounts
import AuroraComms.Goodbye
import AuroraComms.Injection
import AuroraComms.Descriptors
import AuroraComms.Delivery
import AuroraComms.Listing
import AuroraComms.Parsing
import AuroraComms.Library.Words
import AuroraComms.Meta.Literal
import AuroraComms.Meta.ArrRun
import AuroraComms.Prompts
import AuroraComms.Library.Protocol
import AuroraComms.Simulation
import AuroraComms.Chronicle
import AuroraComms.Dialogue
import AuroraComms.Meta.MapCapacity
import AuroraComms.Growth
import AuroraComms.Capacity
import AuroraComms.Conversation
import AuroraComms.Library.Resource
import AuroraComms.Syscalls
import AuroraComms.Fairness
import AuroraComms.Response
import AuroraComms.Transmission
import AuroraComms.Turnover
import AuroraComms.Lengths
import AuroraComms.Allocation
import AuroraComms.Memory
