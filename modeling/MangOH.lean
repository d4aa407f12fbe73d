import MangOH.DataHub.Scenario
import MangOH.DataHub.Buffer
import MangOH.DataHub.ObsSteps
import MangOH.DataHub.PushOutcome
import MangOH.DataHub.Edits
import MangOH.DataHub.Frames
import MangOH.DataHub.Invariants
import MangOH.DataHub.WellFormed
import MangOH.DataHub.PushTrace
import MangOH.DataHub.SettingsTrace
import MangOH.DataHub.Teardown
import MangOH.DataHub.TreeTrace
import MangOH.DataHub.ServiceTrace
import MangOH.DataHub.Reachability
import MangOH.DataHub.Override
import MangOH.DataHub.Units
import MangOH.DataHub.ReadPositions
import MangOH.DataHub.ReadProgress
import MangOH.DataHub.ReadSteps
import MangOH.DataHub.Reads
import MangOH.DataHub.TypeSafety
import MangOH.DataHub.BufferContent
import MangOH.DataHub.Routes
import MangOH.DataHub.RouteLinks
import MangOH.DataHub.HandlerLinks
import MangOH.DataHub.PushDelivery
import MangOH.DataHub.ExactlyOnce
import MangOH.DataHub.Filtering
import MangOH.Json.Strtod
import MangOH.Json.Scanner
import MangOH.Json.Relaxed
import MangOH.Json.Validity
import MangOH.Json.Lookup
import MangOH.Json.Extraction
import MangOH.DataHub.RoundTrip
import MangOH.Json.Parts
import MangOH.Lib.Interaction
import MangOH.Lib.Ring
import MangOH.Mt7697q.Queue
import MangOH.Mt7697q.Ends
import MangOH.Mt7697q.ReadSafety
import MangOH.Mt7697q.RingSafety
import MangOH.Mt7697q.Handlers
import MangOH.DataHub.Creations
import MangOH.DataHub.TreeNames
import MangOH.DataHub.BackupTimers
import MangOH.DataHub.HandlerRemoval
import MangOH.DataHub.HandlerDelivery
import MangOH.DataHub.InputSources
import MangOH.DataHub.Paths
import MangOH.DataHub.ObservationLookups
import MangOH.DataHub.Calm
import MangOH.DataHub.TreeActs
import MangOH.DataHub.TreeRuns
import MangOH.DataHub.Lifetimes
import MangOH.DataHub.AbsolutePaths
import MangOH.DataHub.Announcements
import MangOH.DataHub.Confinement
import MangOH.Lib.Rounding
import MangOH.PeriodicSensor.Interval
import MangOH.PeriodicSensor.Sensor
import MangOH.Lib.Machine
import MangOH.Mt7697q.Interrupt
import MangOH.Mt7697q.IrqLine
import MangOH.Mt7697wifi.Txrx
import MangOH.Lib.Turns
import MangOH.Mt7697wifi.TxPool
import MangOH.Mt7697wifi.TxFifo
import MangOH.Mt7697wifi.Stations
import MangOH.IotSlot.Slot
import MangOH.Mt7697serial.Uart
import MangOH.DataHub.GetterReads
import MangOH.IotSlot.Balance
import MangOH.DataHub.ReadOnly
import MangOH.DataHub.References
import MangOH.DataHub.ReadFraming
import MangOH.DataHub.Doubles
import MangOH.Lib.Cursor
import MangOH.DataHub.ReadAfter
import MangOH.DataHub.Criteria
import MangOH.DataHub.Rationals
import MangOH.DataHub.Throttle
import MangOH.DataHub.BackupSchedule
import MangOH.DataHub.RestoreFailure
import MangOH.DataHub.Statistics
import MangOH.Lib.TwoRuns
import MangOH.DataHub.Forgetting
import MangOH.Lib.Faults
import MangOH.Mt7697q.FailedWrites
import MangOH.Mt7697q.BlockedWriter
import MangOH.AvPublisher.Handler
import MangOH.AvPublisher.Pace
import MangOH.DataHub.RefusedSources
import MangOH.Mt7697wifi.Copies
import MangOH.DataHub.Defaults
import MangOH.DataHub.EntryPaths
import MangOH.DataHub.BackupFiles
import MangOH.Json.Locality
import MangOH.Json.Composition
import MangOH.Mt7697q.BitFields
import MangOH.RedMux.Mux
import MangOH.RedMux.Ownership
import MangOH.IotSlot.Eeprom
import MangOH.IotSlot.Records
import MangOH.IotSlot.IrqGpios
import MangOH.Json.Pointers
import MangOH.Json.Progress
import MangOH.DataHub.Spans
import MangOH.DataHub.Windows
import MangOH.DataHub.Rendering
import MangOH.DataHub.ReadLifeCycle
import MangOH.Lib.Framing
import MangOH.Lib.Views
import MangOH.Mt7697q.FrameAlignment
import MangOH.Mt7697serial.RxWork
import MangOH.DataHub.HeldJson
import MangOH.DataHub.HeldJsonPush
import MangOH.DataHub.HeldJsonSettings
import MangOH.DataHub.HeldJsonTrace
import MangOH.DataHub.JsonTexts
import MangOH.DataHub.JsonValidity
import MangOH.AdminTool.Branch
import MangOH.DataHub.LastPushes
import MangOH.Lib.Refinement
import MangOH.Mt7697q.Io
import MangOH.Mt7697q.OnBus
import MangOH.Mt7697q.Board
import MangOH.Mt7697q.Accesses
import MangOH.Mt7697q.BusRules
import MangOH.Mt7697q.Transfers
import MangOH.Mt7697q.BusCalls
import MangOH.Mt7697q.BoardSafety
