import Packrat.Value.Fold
import Packrat.Value.Literal
import Packrat.Splice.Cache
import Packrat.Grammar.Parse
import Packrat.Proofs.ParseMeaning
import Packrat.Proofs.Flatten
import Packrat.Proofs.ScannerLexer
import Packrat.Proofs.LeftRecursion
import Packrat.Proofs.PackratBound
import Packrat.Proofs.Lookahead
import Packrat.Proofs.Conservative
import Packrat.Proofs.HoleContexts
import Packrat.Proofs.NotationWriter
import Packrat.Proofs.DefinitionChecks
import Packrat.Proofs.Resolution
import Packrat.Proofs.Leaves
import Packrat.Proofs.DocumentParse
import Packrat.Proofs.WholeMatch
import Packrat.Proofs.SplicedClass
import Packrat.Proofs.ClassCuts
import Packrat.Proofs.LiteralTokens
import Packrat.Proofs.SeparatedLists
import Packrat.Proofs.ActionChecks
import Packrat.Proofs.Productions
import Packrat.Proofs.JsonTokens
import Packrat.Proofs.JoinedLines
import Packrat.Proofs.Respacing
import Packrat.Proofs.TokenOrigins
import Packrat.Proofs.FirstWrongEntry
import Packrat.Proofs.ProgramHoles
import Packrat.Proofs.DeclaredTokens
import Packrat.Proofs.DataRewrites
import Packrat.Proofs.ReadBack
import Packrat.Proofs.CursorBounds
import Packrat.Proofs.KeptContexts
import Packrat.Proofs.LeftSpine
import Packrat.Proofs.MarkedText
import Packrat.Proofs.LiteralSet
