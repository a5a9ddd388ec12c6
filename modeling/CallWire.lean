import CallWire.Codec
import CallWire.Document
import CallWire.SettingsText
import CallWire.Proofs.Outcome
import CallWire.Proofs.ScanReads
import CallWire.Proofs.ScanElements
import CallWire.Proofs.ScanFrames
import CallWire.Proofs.ScanAccounts
import CallWire.Proofs.VarintWire
import CallWire.Proofs.VarintCode
import CallWire.Proofs.ValueShape
import CallWire.Proofs.ValueSound
import CallWire.Proofs.WordWire
import CallWire.Proofs.ValueScan
import CallWire.Proofs.ValueSpells
import CallWire.Proofs.ValueRefill
import CallWire.Proofs.ValueBuilt
import CallWire.Proofs.ValueRuns
import CallWire.Proofs.ValueCanonical
import CallWire.Proofs.ValueSize
import CallWire.Proofs.ValueReads
import CallWire.Proofs.ValueBlanks
import CallWire.Proofs.ValueReceivers
import CallWire.Proofs.ValueRoundTrip
import CallWire.Proofs.ValueFrames
import CallWire.Proofs.ValuePlain
import CallWire.Proofs.ValueAccounts
import CallWire.Proofs.ValueNodes
import CallWire.Proofs.ValueItems
import CallWire.Proofs.ValueExpansion
import CallWire.Proofs.TypeGraph
import CallWire.Proofs.WalkInvariant
import CallWire.Proofs.WalkComplete
import CallWire.Proofs.WalkTurns
import CallWire.Proofs.WalkSettled
import CallWire.Proofs.WalkCourses
import CallWire.Proofs.InterfaceChecks
import CallWire.Proofs.InterfaceAccepted
import CallWire.Proofs.TemplateShape
import CallWire.Proofs.ArgumentShape
import CallWire.Proofs.ArgumentDatum
import CallWire.Proofs.BlankTrim
import CallWire.Proofs.PrimitiveNames
import CallWire.Proofs.NumeralText
import CallWire.Proofs.DatumJson
import CallWire.Proofs.ArgumentJson
import CallWire.Proofs.CodecRoundTrip
import CallWire.Proofs.CodecFraming
import CallWire.Proofs.ScanNarrows
import CallWire.Proofs.CodecNarrows
import CallWire.Proofs.CodecTyped
import CallWire.Proofs.TemplateArrays
import CallWire.Proofs.CodecEncodings
import CallWire.Proofs.ScanMeters
import CallWire.Proofs.ValueCharge
import CallWire.Proofs.CodecCharge
import CallWire.Proofs.TemplateNodes
import CallWire.Proofs.ArgumentSound
import CallWire.Proofs.ScanLimits
import CallWire.Proofs.ValueLimits
import CallWire.Proofs.CodecInvocation
import CallWire.Proofs.CodecLimits
import CallWire.Proofs.SectionWire
import CallWire.Proofs.CodecDeployment
import CallWire.Proofs.ScanRestarts
import CallWire.Proofs.CodecPieces
import CallWire.Proofs.TemplateLimits
import CallWire.Proofs.TypeStructure
import CallWire.Proofs.NumeralGrammar
import CallWire.Proofs.ArgumentNumbers
import CallWire.Proofs.ArgumentFaults
import CallWire.Proofs.SectionFraming
import CallWire.Proofs.ValueParts
import CallWire.Proofs.ValuePlaces
import CallWire.Proofs.ValueFailures
import CallWire.Proofs.InterfaceOrder
import CallWire.Proofs.WordCode
import CallWire.Proofs.ScanRuns
import CallWire.Proofs.ValueFewest
import CallWire.Proofs.ValueHistories
import CallWire.Proofs.ValueLengths
