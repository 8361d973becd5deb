import ShaderText.BasicType
import ShaderText.BuiltIn
import ShaderText.Config
import ShaderText.Dialect
import ShaderText.Layout
import ShaderText.Name.Hash
import ShaderText.Name.Reserved
import ShaderText.Name.Table
import ShaderText.Qualifier
import ShaderText.TextureFunction
import ShaderText.TypeName
import ShaderText.Float.Literal
import ShaderText.Error
import ShaderText.Constant.Lemmas
import ShaderText.Fragment
import ShaderText.Fragment.Type
import ShaderText.Fragment.Node
import ShaderText.Pass
import ShaderText.Proofs.Agreement
import ShaderText.Proofs.LoopRun
import ShaderText.Proofs.Substitution
import ShaderText.Proofs.Literal
import ShaderText.Proofs.Word
import ShaderText.Proofs.Yield
import ShaderText.Proofs.Sign
import ShaderText.Proofs.Nesting
import ShaderText.Proofs.Surface
import ShaderText.Proofs.Unambiguous
import ShaderText.Proofs.TypeUse
import ShaderText.Proofs.TypeText
import ShaderText.Proofs.StructBody
import ShaderText.Proofs.Braces
import ShaderText.Proofs.Scope
import ShaderText.Proofs.PassOrder
import ShaderText.Proofs.Unrollable
import ShaderText.Proofs.ConstantValues
import ShaderText.Proofs.WellFormed
import ShaderText.Proofs.Demands
import ShaderText.Proofs.Success
import ShaderText.Proofs.Relabelling
import ShaderText.Proofs.RelabelledTrace
import ShaderText.Proofs.RelabelledText
import ShaderText.Proofs.HashedNames
import ShaderText.Proofs.Brackets
import ShaderText.Proofs.TreeNames
import ShaderText.Proofs.BracketedTokens
import ShaderText.Proofs.BracketedTypes
import ShaderText.Proofs.BracketedText
import ShaderText.Proofs.Addition
import ShaderText.Proofs.Operands
import ShaderText.Proofs.OperandOrder
import ShaderText.Proofs.Normalization
import ShaderText.Proofs.SpelledNames
import ShaderText.Proofs.TextWords
import ShaderText.Proofs.InvariantTokens
import ShaderText.Proofs.InvariantTypes
import ShaderText.Proofs.InvariantText
import ShaderText.Proofs.ReservedNames
import ShaderText.Proofs.Renumbering
import ShaderText.Proofs.CheckedCount
import ShaderText.Proofs.ConsumedValues
import ShaderText.Proofs.CountingHeader
import ShaderText.Proofs.WrappingLoop
import ShaderText.Proofs.Rounding
import ShaderText.Proofs.ShortestDecimal
import ShaderText.Proofs.FloatLiteral
import ShaderText.Proofs.IntegerRounding
import ShaderText.Proofs.ClampedIndex
import ShaderText.Proofs.LiteralText
import ShaderText.Proofs.ExactConstants
import ShaderText.Proofs.FunctionNames
import ShaderText.Proofs.HashedBytes
import ShaderText.Proofs.Depth
import ShaderText.Proofs.TableHistory
