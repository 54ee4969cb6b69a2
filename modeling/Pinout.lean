import Pinout.Editor.Symbols
import Pinout.Main
import Pinout.Proofs.Note.Runs
import Pinout.Proofs.Signature.Appended
import Pinout.Proofs.Signature.DocLine
import Pinout.Server.Session
import Pinout.Proofs.Note.WellFormed
import Pinout.Proofs.Note.Dedented
import Pinout.Proofs.Signature.WellFormed
import Pinout.Proofs.Source.Line
import Pinout.Proofs.Signature.Listing
import Pinout.Proofs.Source.Agreement
import Pinout.Proofs.Signature.Commented
import Pinout.Proofs.Signature.Opaque
import Pinout.Proofs.Page.Reading
import Pinout.Proofs.Command.Run
import Pinout.Proofs.Server.SameText
import Pinout.Proofs.Server.History
import Pinout.Proofs.Diagram.Bounds
import Pinout.Proofs.Json.Extension
import Pinout.Proofs.Page.Script
import Pinout.Proofs.Diagram.Geometry
import Pinout.Proofs.Diagram.Labels
import Pinout.Proofs.Snippet.Values
import Pinout.Proofs.Signature.PortGroup
import Pinout.Proofs.Editor.Outline
import Pinout.Proofs.Editor.Units
import Pinout.Proofs.Signature.Inherited
