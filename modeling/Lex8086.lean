import Lex8086.Main
import Lex8086.Proofs.Boundary
import Lex8086.Proofs.ByteCursor
import Lex8086.Proofs.CommandLine
import Lex8086.Proofs.Edit
import Lex8086.Proofs.Interleaving
import Lex8086.Proofs.Lineage
import Lex8086.Proofs.Log
import Lex8086.Proofs.LoopInvariant
import Lex8086.Proofs.NormalForm
import Lex8086.Proofs.Span
import Lex8086.Proofs.Spelling
import Lex8086.Proofs.Table
import Lex8086.Proofs.TokenShape
