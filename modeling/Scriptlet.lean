import Scriptlet.ByteQueue
import Scriptlet.Main
import Scriptlet.Native.Stock
import Scriptlet.Scope.Group
import Scriptlet.Proofs.Scan
import Scriptlet.Proofs.ScanAgreement
import Scriptlet.Proofs.Script
import Scriptlet.Proofs.BlockIds
import Scriptlet.Proofs.HandleMap
import Scriptlet.Proofs.Indifference
import Scriptlet.Proofs.Reentrancy
import Scriptlet.Proofs.Serials
import Scriptlet.Proofs.Renaming
import Scriptlet.Proofs.Lockstep
import Scriptlet.Proofs.Dialogue
import Scriptlet.Proofs.Isolation
import Scriptlet.Proofs.Halting
import Scriptlet.Proofs.Containment
import Scriptlet.Proofs.Layout
import Scriptlet.Proofs.Appending
import Scriptlet.Proofs.Carrying
import Scriptlet.Proofs.Sequence
import Scriptlet.Proofs.Pieces
import Scriptlet.Proofs.Ceiling
import Scriptlet.Proofs.Exactness
import Scriptlet.Proofs.Headroom
import Scriptlet.Proofs.Reporting
import Scriptlet.Proofs.Records
import Scriptlet.Proofs.NumericLiteral
import Scriptlet.Proofs.QuotedLiteral
import Scriptlet.Proofs.Printing
import Scriptlet.Proofs.IntegerNumeral
import Scriptlet.Proofs.IntegerArithmetic
import Scriptlet.Proofs.Scoping
import Scriptlet.Proofs.ArgumentFormat
import Scriptlet.Proofs.Reading
import Scriptlet.Proofs.Discipline
