import Popfleet.Lib.GoMap
import Popfleet.Lib.Interleaving
import Popfleet.Lib.FileSystem
import Popfleet.Lib.Gcm
import Popfleet.Lib.Hkdf
import Popfleet.Lib.JsonText
import Popfleet.Proto.Msg
import Popfleet.Proto.ReadJSON
import Popfleet.Proto.Codec
import Popfleet.Proto.Theorems.Parsed
import Popfleet.Store.Basic
import Popfleet.Store.History
import Popfleet.Store.Theorems.Save
import Popfleet.Store.Theorems.Open
import Popfleet.Store.Theorems.Damaged
import Popfleet.Store.Theorems.History
import Popfleet.Store.Theorems.Tokens
import Popfleet.Store.Theorems.Durability
import Popfleet.Store.Theorems.Revocation
import Popfleet.Broker.Basic
import Popfleet.Broker.Step
import Popfleet.Broker.Queue
import Popfleet.Broker.Theorems.Exec
import Popfleet.Broker.Theorems.Keys
import Popfleet.Broker.Theorems.WellFormed
import Popfleet.Broker.Theorems.Isolation
import Popfleet.Broker.Theorems.Revocation
import Popfleet.Broker.Theorems.Handles
import Popfleet.Broker.Theorems.Attaches
import Popfleet.Broker.Theorems.Orphans
import Popfleet.Broker.Theorems.Sessions
import Popfleet.Broker.Theorems.Banners
import Popfleet.Broker.Theorems.Leaks
import Popfleet.Broker.Theorems.Queue
import Popfleet.Broker.Theorems.Gapless
import Popfleet.Broker.Theorems.Zombies
import Popfleet.Broker.Theorems.Registrations
import Popfleet.Broker.Theorems.SlowBrowser
import Popfleet.Broker.Theorems.Upgrades
import Popfleet.Broker.Theorems.Transparent
import Popfleet.E2E.Session
import Popfleet.E2E.Basic
import Popfleet.E2E.Step
import Popfleet.E2E.Theorems.Exec
import Popfleet.E2E.Theorems.Authenticity
import Popfleet.E2E.Theorems.Outputs
import Popfleet.E2E.Theorems.Handling
import Popfleet.E2E.Pump
import Popfleet.E2E.Theorems.Pump
import Popfleet.E2E.Theorems.Readers
import Popfleet.E2E.Theorems.Tampered
import Popfleet.E2E.Theorems.Incarnations
import Popfleet.E2E.Theorems.Wire
import Popfleet.V1e.Codec
import Popfleet.V1e.Theorems.Interop
import Popfleet.Contrib.Basic
import Popfleet.Contrib.Step
import Popfleet.Contrib.Theorems.Sealed
import Popfleet.Contrib.Theorems.Plaintext
import Popfleet.Contrib.Theorems.Contained
import Popfleet.Contrib.Theorems.Keystrokes
import Popfleet.Contrib.Theorems.Coalesced
import Popfleet.Contrib.Theorems.Handling
import Popfleet.Worker.Json
import Popfleet.Worker.Basic
import Popfleet.Worker.Step
import Popfleet.Worker.Theorems.Actions
import Popfleet.Worker.Theorems.Sockets
import Popfleet.Worker.Theorems.Ownership
import Popfleet.Worker.Theorems.Registry
import Popfleet.Worker.Theorems.OneTime
import Popfleet.Worker.Theorems.Sweep
import Popfleet.Worker.Theorems.Relay
import Popfleet.Worker.Theorems.Typed
import Popfleet.Worker.Theorems.Tolerance
import Popfleet.Worker.Theorems.LastSeen
import Popfleet.Worker.Theorems.Reported
import Popfleet.Worker.Theorems.Terms
import Popfleet.Worker.Theorems.Stream
import Popfleet.Worker.Theorems.Keystrokes
import Popfleet.Panel.Basic
import Popfleet.Panel.Step
import Popfleet.Panel.Theorems.Exec
import Popfleet.Panel.Theorems.Keyed
import Popfleet.Panel.Theorems.Downgrade
import Popfleet.Panel.Theorems.FailsClosed
import Popfleet.Broker.Theorems.Exits
import Popfleet.Deployment.Host
import Popfleet.Deployment.Network
import Popfleet.Contrib.Theorems.Lives
import Popfleet.Deployment.Python
import Popfleet.Deployment.Theorems.EndToEnd
import Popfleet.Deployment.Relay
import Popfleet.Deployment.Theorems.Relayed
import Popfleet.E2E.Enrolled
import Popfleet.E2E.Theorems.Lives
import Popfleet.E2E.Theorems.Page
