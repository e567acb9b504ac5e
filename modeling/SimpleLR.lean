import SimpleLR.Follow.Closed
import SimpleLR.Grammar.Loadable
import SimpleLR.Main
import SimpleLR.Proofs.Parser.Language
import SimpleLR.Proofs.Parser.Safety
import SimpleLR.Proofs.Table.Monotonicity
import SimpleLR.Proofs.Table.RoundTrip
import SimpleLR.Renaming
import SimpleLR.Proofs.Grammar.Declaration
import SimpleLR.Proofs.Parser.CorrectPrefix
import SimpleLR.Proofs.Words
import SimpleLR.Proofs.Grammar.RuleText
import SimpleLR.Proofs.Family
import SimpleLR.Proofs.Grammar.Reordering
import SimpleLR.Proofs.Automaton.Reordering
import SimpleLR.Proofs.Table.Reordering
import SimpleLR.Proofs.Renaming
import SimpleLR.Proofs.Grammar.Renaming
import SimpleLR.Proofs.Automaton.Renaming
import SimpleLR.Proofs.Table.Renaming
import SimpleLR.Proofs.Definition.Loading
import SimpleLR.Proofs.Parser.Continuation
import SimpleLR.Proofs.Parser.Halting
import SimpleLR.Proofs.Table.Normalization
import SimpleLR.Proofs.FileSystem
import SimpleLR.Proofs.Generation
import SimpleLR.Proofs.Definition.Lines
import SimpleLR.Proofs.Definition.Lexing
import SimpleLR.Proofs.Definition.Parsing
import SimpleLR.Proofs.Definition.Reading
import SimpleLR.Proofs.Definition.Inference
import SimpleLR.Proofs.Automaton.Search
import SimpleLR.Proofs.Automaton.Numbering
import SimpleLR.Proofs.Automaton.Canonical
import SimpleLR.Proofs.Automaton.AccessingSymbol
import SimpleLR.Proofs.Table.Conflicts
import SimpleLR.Proofs.Table.WellFormed
import SimpleLR.Proofs.Saturation
import SimpleLR.Proofs.First.Passes
import SimpleLR.Proofs.Follow.Passes
import SimpleLR.Proofs.Automaton.ClosureLaws
import SimpleLR.Proofs.Grammar.RuleFaults
import SimpleLR.Proofs.Grammar.Loadable
import SimpleLR.Proofs.Grammar.Printing
import SimpleLR.Proofs.Grammar.AugmentedStart
import SimpleLR.Proofs.Listing
