import SerialNexus.TapSilence
import SerialNexus.PtyLedger
import SerialNexus.Purge
import SerialNexus.ControlProtocol
import SerialNexus.LogRotation
import SerialNexus.LegPump
import SerialNexus.ContentionCancel
import SerialNexus.ContentionLeak
import SerialNexus.LegSurgery
import SerialNexus.WiringHolders
import SerialNexus.SendOnce
import SerialNexus.ResolverCapture
import SerialNexus.SerialWriter
import SerialNexus.SerialSignals
import SerialNexus.ExecConservation
import SerialNexus.HistoryRetention
import SerialNexus.HelloExact
import SerialNexus.Base64
import SerialNexus.DataPath
import SerialNexus.PatternScan
import SerialNexus.MapNode
import SerialNexus.CodecTargetward
import SerialNexus.CodecStatus
import SerialNexus.CodecHostward
import SerialNexus.WebGates
import SerialNexus.LegAddress
import SerialNexus.Bridge
import SerialNexus.AnsiParser
import SerialNexus.Saver
import SerialNexus.Opfs
import SerialNexus.LegLink
import SerialNexus.Console
import SerialNexus.DaemonReload
