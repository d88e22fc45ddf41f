import SolidScript.Error
import SolidScript.Proofs.Compose
import SolidScript.Proofs.Conversion
import SolidScript.Proofs.Declared
import SolidScript.Proofs.Expected
import SolidScript.Proofs.Fault
import SolidScript.Proofs.Language
import SolidScript.Proofs.Layout
import SolidScript.Proofs.NearestIf
import SolidScript.Proofs.Nesting
import SolidScript.Proofs.Number.Fewest
import SolidScript.Proofs.Number.Middle
import SolidScript.Proofs.NumberText
import SolidScript.Proofs.Placed
import SolidScript.Proofs.Positions
import SolidScript.Proofs.Precedence
import SolidScript.Proofs.Progress
import SolidScript.Proofs.Remembering
import SolidScript.Proofs.Rendering
import SolidScript.Proofs.Restarting
import SolidScript.Proofs.Shape
import SolidScript.Proofs.Spacing
import SolidScript.Proofs.Tiling
import SolidScript.Proofs.Tokens
import SolidScript.Proofs.Words
import SolidScript.Script.Grouping
import SolidScript.Script.Parse
import SolidScript.Script.Places
import SolidScript.Token.Lexer
import SolidScript.Token.Spelling
