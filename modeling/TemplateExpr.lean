import TemplateExpr.Bytecode.Listing
import TemplateExpr.Expr.Schema
import TemplateExpr.Json.Reader
import TemplateExpr.Machine.Run
import TemplateExpr.Proofs.Assembler.Encoding
import TemplateExpr.Proofs.Compilation.Blame
import TemplateExpr.Proofs.Compilation.Chain
import TemplateExpr.Proofs.Compilation.Constant
import TemplateExpr.Proofs.Compilation.Options
import TemplateExpr.Proofs.Compilation.Representation
import TemplateExpr.Proofs.Compilation.Reversal
import TemplateExpr.Proofs.Compilation.StackDepth
import TemplateExpr.Proofs.Emission.Capacity
import TemplateExpr.Proofs.Erasure.Correct
import TemplateExpr.Proofs.Evaluation.Expr
import TemplateExpr.Proofs.Expr.Text
import TemplateExpr.Proofs.Machine.Cutoff
import TemplateExpr.Proofs.Machine.EffectTable
import TemplateExpr.Proofs.OrderedMap.History
import TemplateExpr.Proofs.Settings.Layering
import TemplateExpr.Proofs.Validation.WellFormed
import TemplateExpr.Proofs.Value.NumberText
import TemplateExpr.Proofs.Value.Order
