import CommandGrammar.Description
import CommandGrammar.Main
import CommandGrammar.Proofs.Dispatcher.Alias
import CommandGrammar.Proofs.Dispatcher.Restriction
import CommandGrammar.Proofs.Dispatcher.Run
import CommandGrammar.Proofs.Grammar.Change
import CommandGrammar.Proofs.Grammar.Index
import CommandGrammar.Proofs.Grammar.Lineage
import CommandGrammar.Proofs.Grammar.Redirect
import CommandGrammar.Proofs.Match.Front
import CommandGrammar.Proofs.Match.Path
import CommandGrammar.Proofs.Match.Route
import CommandGrammar.Proofs.Match.Search
import CommandGrammar.Proofs.Dispatcher.Registration
import CommandGrammar.Proofs.Dispatcher.Guard
import CommandGrammar.Proofs.Dispatcher.OwnArgument
import CommandGrammar.Proofs.Dispatcher.AliasChain
import CommandGrammar.Proofs.Grammar.Union
import CommandGrammar.Proofs.Dispatcher.Outcome
import CommandGrammar.Proofs.Dispatcher.Words
import CommandGrammar.Proofs.Grammar.Adoption
import CommandGrammar.Proofs.Grammar.Childless
import CommandGrammar.Proofs.Dispatcher.Later
import CommandGrammar.Proofs.Dispatcher.Plain
import CommandGrammar.Proofs.Dispatcher.Order
import CommandGrammar.Proofs.Match.Nesting
import CommandGrammar.Proofs.Match.Refusal
import CommandGrammar.Proofs.Dispatcher.Anchor
import CommandGrammar.Proofs.Dispatcher.Position
import CommandGrammar.Proofs.Dispatcher.Suffix
import CommandGrammar.Proofs.Grammar.Removal
import CommandGrammar.Proofs.Grammar.Frame
import CommandGrammar.Proofs.Dispatcher.Hidden
import CommandGrammar.Proofs.Usage.Hidden
import CommandGrammar.Proofs.Usage.Mirror
import CommandGrammar.Proofs.Text.ByteOrder
import CommandGrammar.Proofs.Dispatcher.Values
import CommandGrammar.Proofs.Store.Refinement
import CommandGrammar.Proofs.Store.Ways
import CommandGrammar.Proofs.Store.Effect
import CommandGrammar.Proofs.Store.Guests
import CommandGrammar.Proofs.Grammar.Fresh
import CommandGrammar.Proofs.Dispatcher.Removal
import CommandGrammar.Proofs.CommandLine.FrontEnds
import CommandGrammar.Proofs.Text.Quoted
import CommandGrammar.Proofs.Number.Integer
import CommandGrammar.Proofs.Usage.Form
import CommandGrammar.Proofs.Usage.Optional
import CommandGrammar.Proofs.Match.Contract
import CommandGrammar.Proofs.Text.Offset
import CommandGrammar.Proofs.Match.Recording
import CommandGrammar.Proofs.Table.LastWrite
