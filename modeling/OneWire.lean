import OneWire.Proofs.Checksum.Detection
import OneWire.Proofs.Checksum.Remainder
import OneWire.Proofs.Exchange.FirstFailure
import OneWire.Proofs.Exchange.Views
import OneWire.Proofs.PulseLine.Errands
import OneWire.Proofs.PulseLine.Framing
import OneWire.Proofs.PulseLine.Pace
import OneWire.Proofs.PulseLine.SoleCode
import OneWire.Proofs.RomCode.Text
import OneWire.Proofs.RomCode.Word
import OneWire.Proofs.ScriptedLine.Wirings
import OneWire.Proofs.Search.Coherence
import OneWire.Proofs.Search.Family
import OneWire.Proofs.Search.Heard
import OneWire.Proofs.Search.Interleaving
import OneWire.Proofs.Search.Sweeps
import OneWire.Proofs.Timing.Acceptance
import OneWire.ScriptedLine
import OneWire.Search.Sweep
