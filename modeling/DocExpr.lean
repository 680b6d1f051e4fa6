import DocExpr.Text.Blank
import DocExpr.Text.Hidden
import DocExpr.Text.Quoted
import DocExpr.Dict
import DocExpr.Numeric.Shortest
import DocExpr.Base64
import DocExpr.Json.Reader
import DocExpr.Json.Writer
import DocExpr.Attribute.Json
import DocExpr.Operation
import DocExpr.Schema.Scalar
import DocExpr.Record.Item
import DocExpr.Placeholder.Context
import DocExpr.Path.Resolve
import DocExpr.Update.Compile
import DocExpr.Request.Body
import DocExpr.Table
import DocExpr.Proofs.Dict
import DocExpr.Proofs.Except
import DocExpr.Proofs.Lexeme
import DocExpr.Proofs.Leaves
import DocExpr.Proofs.Written
import DocExpr.Proofs.Composition
import DocExpr.Proofs.Code
import DocExpr.Proofs.Binding
import DocExpr.Proofs.History
import DocExpr.Proofs.Run
import DocExpr.Proofs.Resolution
import DocExpr.Proofs.Meaning
import DocExpr.Proofs.ConditionMeaning
import DocExpr.Proofs.Survivors
import DocExpr.Proofs.UpdateMeaning
import DocExpr.Proofs.LiteralForm
import DocExpr.Proofs.Validation
import DocExpr.Proofs.NumberText
import DocExpr.Proofs.NumberRange
import DocExpr.Proofs.Reordering
import DocExpr.Proofs.Fitting
import DocExpr.Proofs.Export
import DocExpr.Proofs.RoundTrip
import DocExpr.Proofs.SchemaWalk
import DocExpr.Proofs.Keeping
import DocExpr.Proofs.Gathering
import DocExpr.Proofs.Preparing
import DocExpr.Proofs.Merging
import DocExpr.Proofs.Success
import DocExpr.Proofs.SaveAndPut
import DocExpr.Proofs.Base64
import DocExpr.Proofs.JsonText
import DocExpr.Proofs.ValueCodec
import DocExpr.Proofs.Alike
import DocExpr.Proofs.Unambiguity
import DocExpr.Proofs.Expressions
import DocExpr.Proofs.Origins
import DocExpr.Proofs.Sigils
import DocExpr.Proofs.Strays
import DocExpr.Proofs.FiniteNumbers
import DocExpr.Proofs.WriteBack
import DocExpr.Proofs.ReservationOrder
import DocExpr.Proofs.SchemaPaths
import DocExpr.Proofs.Acceptance
import DocExpr.Proofs.RequestBodies
import DocExpr.Proofs.Arithmetic
import DocExpr.Proofs.ReferenceScan
import DocExpr.Proofs.ItemDecoding
import DocExpr.Proofs.Errors
import DocExpr.Proofs.KeyUpdates
import DocExpr.Proofs.CodeOrder
import DocExpr.Proofs.Minting
import DocExpr.Proofs.Declarations
import DocExpr.Proofs.Aliases
